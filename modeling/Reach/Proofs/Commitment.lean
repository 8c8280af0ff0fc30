import Reach.Proofs.Agreement
import Reach.Proofs.FiniteMap

/-!
What a hook determines of partly symbolic arguments it determines of every instance of them: no hook
commits itself too early. A map may show two keys that become one, or a key that its frame brings once
more; where no two entries of the instance have one key, counted before equal entries merge, the map
hooks see the same entry as before.
-/

namespace Reach

namespace Hook

variable {algebra : Term.Algebra Term} {entries : List (Entry Term)} {frame : Option Term}
  {entry : Entry Term} {key value container result : Term}

section Image

variable (distinct : ((algebra.spread .map entries frame).map Entry.key).Nodup)
include distinct

/-- Keys that differ in the image differ. -/
theorem nodup_keys_of_spread : (entries.map Entry.key).Nodup := by
  rw [Term.Algebra.spread_eq, List.map_append] at distinct
  refine .of_map (Term.fold algebra) ?_
  have images := (List.nodup_append.mp distinct).1
  rw [List.map_map] at images ⊢
  exact (List.map_congr_left fun entry _ => Entry.key_map _ entry) ▸ images

theorem nodup_keys_arranged :
    ((Term.arrange .map (algebra.spread .map entries frame)).map Entry.key).Nodup :=
  ((Term.arrange_perm_of_nodup fun _ => .of_map Entry.key distinct).map Entry.key).nodup_iff.mpr
    distinct

end Image

namespace Known

variable (known : Known key entries frame) (fixedKey : key.fold algebra = key)
  (fixed : ∀ entry ∈ entries, entry.key.ground = true → entry.key.fold algebra = entry.key)

include known in
/-- The image of a map in which it is known where a key stands is a map. -/
theorem fold_collection (normalizing : algebra.Normalizing) :
    (Term.collection .map entries frame).fold algebra =
      .collection .map (Term.arrange .map (algebra.spread .map entries frame))
        (Term.splice .map (entries.map (Entry.map (Term.fold algebra)))
          (frame.map (Term.fold algebra))).2 := by
  rw [normalizing.fold_collection_eq]
  rcases known.decided with ⟨entry, member, _⟩ | ⟨rfl, _⟩
  · refine Term.normalized_eq_collection (Term.splice_ne_nil fun bare => ?_)
    rw [List.map_eq_nil_iff.mp bare] at member
    cases member
  · exact Term.normalized_none _ _

include known fixedKey fixed

theorem image : Known key (Term.arrange .map (algebra.spread .map entries frame))
    (Term.splice .map (entries.map (Entry.map (Term.fold algebra))) (frame.map (Term.fold algebra))).2 := by
  refine ⟨known.ground, known.decided.imp ?_ ?_⟩
  · rintro ⟨entry, member, same⟩
    refine ⟨entry.map (Term.fold algebra), Term.mem_arrange.mpr ?_, ?_⟩
    · exact Term.mem_splice_of_mem (List.mem_map_of_mem member)
    · rw [Entry.key_map, same, fixedKey]
  · rintro ⟨rfl, apart⟩
    refine ⟨rfl, fun image member => ?_⟩
    obtain ⟨entry, present, rfl⟩ := List.mem_map.mp (Term.mem_arrange.mp member)
    rw [Entry.key_map, fixed entry present (apart entry present).1]
    exact apart entry present

variable (distinct : ((algebra.spread .map entries frame).map Entry.key).Nodup)
include distinct

/-- The image has no entry under the key but the image of the entry that had it. -/
theorem mem_others_image :
    entry ∈ others key (Term.arrange .map (algebra.spread .map entries frame)) ↔
      entry ∈ algebra.spread .map (others key entries) frame := by
  rw [Term.Algebra.spread_eq, List.map_append] at distinct
  obtain ⟨images, _, apart⟩ := List.nodup_append.mp distinct
  have shown (source : Entry Term) (present : source ∈ entries) :
      (source.map (Term.fold algebra)).key = key ↔ source.key = key := by
    constructor
    · intro same
      rcases known.decided with ⟨found, member, here⟩ | ⟨_, absent⟩
      · rw [List.map_map] at images
        have meets : (found.map (Term.fold algebra)).key = key := by rw [Entry.key_map, here, fixedKey]
        rw [List.inj_on_of_nodup_map images present member (same.trans meets.symm)]
        exact here
      · rwa [Entry.key_map, fixed source present (absent source present).1] at same
    · intro here
      rw [Entry.key_map, here, fixedKey]
  have brought (image : Entry Term) (member : image ∈ algebra.spread .map [] frame) : image.key ≠ key := by
    rcases known.decided with ⟨found, present, here⟩ | ⟨rfl, _⟩
    · have meets : (found.map (Term.fold algebra)).key = key := by rw [Entry.key_map, here, fixedKey]
      intro same
      exact apart _ (List.mem_map_of_mem (List.mem_map_of_mem present)) _ (List.mem_map_of_mem member)
        (meets.trans same.symm)
    · cases member
  rw [mem_others, Term.mem_arrange, Term.Algebra.spread_eq, Term.Algebra.spread_eq .map (others key entries),
    List.mem_append, List.mem_append]
  constructor
  · rintro ⟨member | member, differ⟩
    · obtain ⟨source, present, rfl⟩ := List.mem_map.mp member
      exact .inl (List.mem_map_of_mem (mem_others.mpr ⟨present, fun here =>
        differ ((shown source present).mpr here)⟩))
    · exact .inr member
  · rintro (member | member)
    · obtain ⟨source, present, rfl⟩ := List.mem_map.mp member
      obtain ⟨present, differ⟩ := mem_others.mp present
      exact ⟨.inl (List.mem_map_of_mem present), fun same => differ ((shown source present).mp same)⟩
    · exact ⟨.inr member, brought entry member⟩

/-- Rebuilding the image without the key gives the image of the map rebuilt without it. -/
theorem normalized_image (normalizing : algebra.Normalizing) (more : List (Entry Term)) :
    Term.normalized .map (others key (Term.arrange .map (algebra.spread .map entries frame)) ++
        more.map (Entry.map (Term.fold algebra)))
      (Term.splice .map (entries.map (Entry.map (Term.fold algebra))) (frame.map (Term.fold algebra))).2 =
      (Term.normalized .map (others key entries ++ more) frame).fold algebra := by
  have sealed : ∀ rest ∈ (Term.splice .map (entries.map (Entry.map (Term.fold algebra)))
      (frame.map (Term.fold algebra))).2, rest.kind? ≠ some .map := fun _ => Term.kind?_of_mem_splice
  rw [normalizing.fold_normalized, Term.normalized_eq_iff, Term.splice_of_kind sealed]
  constructor
  · intro entry
    show _ ↔ entry ∈ algebra.spread .map (others key entries ++ more) frame
    rw [List.mem_append, known.mem_others_image fixedKey fixed distinct, Term.Algebra.spread_append,
      Term.Algebra.spread_eq .map (others key entries), Term.Algebra.spread_eq .map more,
      List.mem_append, List.mem_append, List.mem_append]
    exact or_right_comm.trans or_assoc
  · rw [Term.splice_append, Term.splice_append .map (List.map _ (_ ++ _))]

end Known

section Maps

variable (normalizing : algebra.Normalizing) (fixedKey : key.ground = true → key.fold algebra = key)
  (fixed : ∀ entries frame, container = .collection .map entries frame → ∀ entry ∈ entries,
    entry.key.ground = true → entry.key.fold algebra = entry.key)
  (distinct : ∀ entries frame, container = .collection .map entries frame →
    ((algebra.spread .map entries frame).map Entry.key).Nodup)
include normalizing fixedKey fixed distinct

omit fixed in
private theorem lookup_fold (made : lookup container key = some result) :
    lookup (container.fold algebra) (key.fold algebra) = some (result.fold algebra) := by
  obtain ⟨⟨entries, frame⟩, shape, _⟩ := Option.bind_eq_some_iff.mp made
  obtain rfl := collection?_eq_some shape
  have apart := distinct entries frame rfl
  obtain ⟨ground, entry, member, here, rfl⟩ := (lookup_eq_some_iff (nodup_keys_of_spread apart)).mp made
  have known : Known key entries frame := ⟨ground, .inl ⟨entry, member, here⟩⟩
  rw [known.fold_collection normalizing, fixedKey ground, lookup_eq_some_iff (nodup_keys_arranged apart)]
  refine ⟨ground, entry.map (Term.fold algebra), Term.mem_arrange.mpr ?_, ?_, ?_⟩
  · exact Term.mem_splice_of_mem (List.mem_map_of_mem member)
  · rw [Entry.key_map, here, fixedKey ground]
  · cases entry <;> rfl

private theorem update_fold (made : update container key value = some result) :
    update (container.fold algebra) (key.fold algebra) (value.fold algebra) =
      some (result.fold algebra) := by
  obtain ⟨⟨entries, frame⟩, shape, _⟩ := Option.bind_eq_some_iff.mp made
  obtain rfl := collection?_eq_some shape
  have apart := distinct entries frame rfl
  obtain ⟨known, rfl⟩ := (update_eq_some_iff (nodup_keys_of_spread apart)).mp made
  have still := fixedKey known.ground
  have unmoved := fixed entries frame rfl
  rw [known.fold_collection normalizing, update_eq_some_iff (nodup_keys_arranged apart),
    ← known.normalized_image still unmoved apart normalizing, still]
  refine ⟨known.image still unmoved, ?_⟩
  rw [List.map_singleton, Entry.map, still]

private theorem remove_fold (made : remove container key = some result) :
    remove (container.fold algebra) (key.fold algebra) = some (result.fold algebra) := by
  obtain ⟨⟨entries, frame⟩, shape, _⟩ := Option.bind_eq_some_iff.mp made
  obtain rfl := collection?_eq_some shape
  have apart := distinct entries frame rfl
  obtain ⟨known, rfl⟩ := (remove_eq_some_iff (nodup_keys_of_spread apart)).mp made
  have still := fixedKey known.ground
  have unmoved := fixed entries frame rfl
  have rebuilt := known.normalized_image still unmoved apart normalizing []
  rw [List.map_nil, List.append_nil, List.append_nil] at rebuilt
  rw [known.fold_collection normalizing, remove_eq_some_iff (nodup_keys_arranged apart), still]
  exact ⟨known.image still unmoved, rebuilt⟩

end Maps

/-- What a hook on maps determines before the variables are replaced it determines afterwards, if ground
terms are left alone and no two keys of an image are one. -/
theorem apply_fold_of_isMap {hook : Hook} {args : List Term} (normalizing : algebra.Normalizing)
    (literal : ∀ sort value, (Term.token sort value).fold algebra = .token sort value)
    (mapped : hook.isMap = true) (fixed : ∀ arg ∈ args, arg.ground = true → arg.fold algebra = arg)
    (fixedKeys : ∀ entries frame, .collection .map entries frame ∈ args → ∀ entry ∈ entries,
      entry.key.ground = true → entry.key.fold algebra = entry.key)
    (distinct : ∀ entries frame, .collection .map entries frame ∈ args →
      ((algebra.spread .map entries frame).map Entry.key).Nodup)
    (made : hook.apply args = some result) :
    hook.apply (args.map (Term.fold algebra)) = some (result.fold algebra) := by
  have keysOf {container : Term} (given : container ∈ args) : ∀ entries frame,
      container = .collection .map entries frame → ∀ entry ∈ entries,
        entry.key.ground = true → entry.key.fold algebra = entry.key :=
    fun entries frame shape => fixedKeys entries frame (shape ▸ given)
  have apartIn {container : Term} (given : container ∈ args) : ∀ entries frame,
      container = .collection .map entries frame →
        ((algebra.spread .map entries frame).map Entry.key).Nodup :=
    fun entries frame shape => distinct entries frame (shape ▸ given)
  unfold apply at made
  split at made <;> try cases mapped
  · next container key =>
    exact lookup_fold normalizing (fixed key (by simp)) (apartIn (by simp)) made
  · next container key value =>
    exact update_fold normalizing (fixed key (by simp)) (keysOf (by simp)) (apartIn (by simp)) made
  · next container key =>
    exact remove_fold normalizing (fixed key (by simp)) (keysOf (by simp)) (apartIn (by simp)) made
  · next key container =>
    exact member_fold normalizing literal (fixed key (by simp)) (keysOf (by simp)) made
  · next container =>
    exact count_fold literal (fixed container (by simp)) made
  · cases made

/-- Let no two entries of the instance of a map argument have one key: neither two entries that it shows,
nor two that the image of its frame brings, nor one of each. Then the answer of a hook on canonical
arguments is its answer on every instance of them. -/
theorem applyNamed_apply {name : String} {args : List Term} {s : Subst}
    (canonical : ∀ arg ∈ args, arg.Canonical) (images : s.Canonical)
    (distinct : ∀ entries frame, .collection .map entries frame ∈ args →
      ((s.algebra.spread .map entries frame).map Entry.key).Nodup)
    (made : applyNamed name args = some result) :
    applyNamed name (args.map s.apply) = some (s.apply result) := by
  obtain ⟨hook, named, made⟩ := Option.bind_eq_some_iff.mp made
  have fixed {part : Term} (canonical : part.Canonical) (ground : part.ground = true) :
      part.fold s.algebra = part := by
    refine Subst.fold_algebra_eq_self canonical fun v occurs => ?_
    rw [(Term.ground_iff_vars_eq_nil part).mp ground] at occurs
    cases occurs
  have fixedKeys (kind : Kind) (entries : List (Entry Term)) (frame : Option Term)
      (given : .collection kind entries frame ∈ args) (entry : Entry Term) (member : entry ∈ entries)
      (ground : entry.key.ground = true) : entry.key.fold s.algebra = entry.key :=
    fixed ((canonical _ given).of_entry entry member _ entry.key_mem_parts) ground
  have answer : hook.apply (args.map (Term.fold s.algebra)) = some (result.fold s.algebra) := by
    cases mapped : hook.isMap with
    | false =>
      exact apply_fold images.normalizing (fun _ _ => rfl) mapped
        (fun _ arg member => fixed (canonical arg member)) (fun _ => fixedKeys) made
    | true =>
      exact apply_fold_of_isMap images.normalizing (fun _ _ => rfl) mapped
        (fun arg member => fixed (canonical arg member)) (fixedKeys .map) distinct made
  have folded : args.map s.apply = args.map (Term.fold s.algebra) :=
    List.map_congr_left fun arg member => Subst.apply_eq_fold_algebra s (canonical arg member)
  rw [folded, Subst.apply_eq_fold_algebra s ((result_of_apply made).canonical canonical)]
  exact Option.bind_eq_some_iff.mpr ⟨hook, named, answer⟩

/-- A key of a map with a symbolic key and a frame is set to a symbolic value. Then the symbolic key and
the value are known, and the frame turns out to hold a binding that comes first. -/
theorem applyNamed_apply_spliced :
    let bound (key : Term) (value : Term) := Entry.binding key value
    let key := Term.ofString "c"
    let value := Term.var ⟨"X", .int⟩
    let opened (atKey : Term) : Term := .collection .map
      [bound (.var ⟨"K", .string⟩) (.ofInt 1), bound key atKey] (some (.var ⟨"M", .map⟩))
    let closed (atKey : Term) : Term := .collection .map
      [bound (.ofString "a") (.ofInt 7), bound (.ofString "b") (.ofInt 1), bound key atKey] none
    let s : Subst := .ofList [(⟨"K", .string⟩, .ofString "b"), (⟨"X", .int⟩, .ofInt 5),
      (⟨"M", .map⟩, .collection .map [bound (.ofString "a") (.ofInt 7)] none)]
    applyNamed "MAP.update" [opened (.ofInt 2), key, value] = some (opened value) ∧
      s.apply (opened (.ofInt 2)) = closed (.ofInt 2) ∧ s.apply (opened value) = closed (.ofInt 5) ∧
      applyNamed "MAP.update" [closed (.ofInt 2), key, .ofInt 5] = some (closed (.ofInt 5)) := by
  intro bound key value opened closed s
  have canonical : ∀ arg ∈ [opened (.ofInt 2), key, value], arg.Canonical := by
    have shown : (opened (.ofInt 2)).Canonical := by
      refine .collection ?_ (by simp [Term.Canonical.var]) rfl
      simp [bound, key, Entry.parts, Term.ofString, Term.ofInt, Term.Canonical.token, Term.Canonical.var]
    simpa using ⟨shown, Term.Canonical.token _ _, Term.Canonical.var _⟩
  have images : s.Canonical := by
    intro v term found
    have member : (v, term) ∈ s.entries := Assoc.get?_eq_some_iff.mp found
    rw [show s.entries = [_, _, _] from rfl] at member
    simp only [List.mem_cons, List.not_mem_nil, or_false, Prod.mk.injEq] at member
    rcases member with ⟨-, rfl⟩ | ⟨-, rfl⟩ | ⟨-, rfl⟩
    · exact .token _ _
    · exact .token _ _
    · refine .collection ?_ (by simp) rfl
      simp [bound, Entry.parts, Term.ofString, Term.ofInt, Term.Canonical.token]
  have before : s.apply (opened (.ofInt 2)) = closed (.ofInt 2) := by
    decide +kernel
  have after : s.apply (opened value) = closed (.ofInt 5) := by
    decide +kernel
  have made : applyNamed "MAP.update" [opened (.ofInt 2), key, value] = some (opened value) := by
    decide +kernel
  have distinct : ∀ entries frame, .collection .map entries frame ∈ [opened (.ofInt 2), key, value] →
      ((s.algebra.spread .map entries frame).map Entry.key).Nodup := by
    intro entries frame given
    have same : opened (.ofInt 2) = .collection .map entries frame := by
      simpa [key, value, Term.ofString, eq_comm] using given
    cases same
    decide +kernel
  refine ⟨made, before, after, ?_⟩
  have answer := applyNamed_apply canonical images distinct made
  rw [List.map_cons, before, after] at answer
  exact answer

end Hook

end Reach
