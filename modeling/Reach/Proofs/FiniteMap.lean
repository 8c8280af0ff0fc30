import Reach.Proofs.Separation
import Reach.Proofs.Stability

/-!
The hooks on maps treat a map with distinct keys as a finite map. It is known of a ground key where it
stands, if the map has it or if nothing in the map could still become it. Then an update sets the key
and leaves the others alone, whatever is symbolic in the map, and updates of different keys commute.
-/

namespace Reach

namespace Entry

/-- The value of a binding, or the element itself. -/
def held {α : Type} : Entry α → α
  | element item => item
  | binding _ value => value

end Entry

namespace Hook

variable {key other value value' result : Term} {entries entries' kept : List (Entry Term)}
  {entry : Entry Term} {frame : Option Term}

theorem key_of_locate {index : Nat} (found : locate key entries = .found index entry) :
    entry.key = key := by
  have stands := getElem?_of_locate found
  unfold locate at found
  split at found
  · split at found
    · next position =>
      split at found
      · cases found
        obtain ⟨below, same, _⟩ := List.findIdx?_eq_some_iff_getElem.mp position
        rw [← (List.getElem?_eq_some_iff.mp stands).2]
        simpa using same
      · cases found
    · split at found <;> cases found
  · cases found

/-- The entries under other keys. -/
def others (key : Term) (entries : List (Entry Term)) : List (Entry Term) :=
  entries.filter fun entry => entry.key ≠ key

theorem mem_others : entry ∈ others key entries ↔ entry ∈ entries ∧ entry.key ≠ key := by
  rw [others, List.mem_filter, decide_eq_true_eq]

/-- Where distinct keys stand, taking out the entry of one leaves the entries of the others. -/
theorem mem_eraseIdx_iff (distinct : (entries.map Entry.key).Nodup) {index : Nat} {found : Entry Term}
    (stands : entries[index]? = some found) :
    entry ∈ entries.eraseIdx index ↔ entry ∈ others found.key entries := by
  have position {i : Nat} (here : entries[i]? = some entry) (same : entry.key = found.key) :
      i = index := by
    obtain ⟨below, rfl⟩ := List.getElem?_eq_some_iff.mp here
    obtain ⟨below', rfl⟩ := List.getElem?_eq_some_iff.mp stands
    have inside : i < (entries.map Entry.key).length := by simpa using below
    have inside' : index < (entries.map Entry.key).length := by simpa using below'
    have keys : (entries.map Entry.key)[i] = (entries.map Entry.key)[index] := by simpa using same
    exact distinct.getElem_inj_iff.mp keys
  rw [List.mem_eraseIdx_iff_getElem?, mem_others, List.mem_iff_getElem?]
  constructor
  · intro ⟨i, elsewhere, here⟩
    exact ⟨⟨i, here⟩, fun same => elsewhere (position here same)⟩
  · intro ⟨⟨i, here⟩, differ⟩
    refine ⟨i, ?_, here⟩
    rintro rfl
    exact differ (congrArg Entry.key (Option.some.inj (here.symm.trans stands)))

/-- It is known where a key stands: it is there, or it is neither among the entries nor in a frame. -/
structure Known (key : Term) (entries : List (Entry Term)) (frame : Option Term) : Prop where
  ground : key.ground = true
  decided : (∃ entry ∈ entries, entry.key = key) ∨
    frame = none ∧ ∀ entry ∈ entries, entry.key.ground = true ∧ entry.key ≠ key

theorem known_of_without (distinct : (entries.map Entry.key).Nodup)
    (left : without key entries frame = some kept) :
    Known key entries frame ∧ ∀ entry, entry ∈ kept ↔ entry ∈ others key entries := by
  unfold without at left
  split at left
  · next index entry found =>
    cases left
    obtain ⟨ground, present⟩ := locate_found_iff.mp ⟨index, entry, found⟩
    refine ⟨⟨ground, .inl present⟩, fun later => ?_⟩
    rw [mem_eraseIdx_iff distinct (getElem?_of_locate found), key_of_locate found]
  · next absent =>
    cases left
    obtain ⟨ground, apart⟩ := locate_absent_iff.mp absent
    refine ⟨⟨ground, .inr ⟨rfl, apart⟩⟩, fun entry => ?_⟩
    rw [mem_others]
    exact ⟨fun member => ⟨member, (apart entry member).2⟩, And.left⟩
  · cases left

private theorem Known.exists_without (known : Known key entries frame) :
    ∃ kept, without key entries frame = some kept := by
  unfold without
  rcases known.decided with present | ⟨rfl, apart⟩
  · obtain ⟨index, entry, found⟩ := locate_found_iff.mpr ⟨known.ground, present⟩
    simp only [found]
    exact ⟨_, rfl⟩
  · simp only [locate_absent_iff.mpr ⟨known.ground, apart⟩]
    exact ⟨entries, rfl⟩

section Equations

variable (distinct : (entries.map Entry.key).Nodup)
include distinct

/-- A map that is rebuilt without a key, with more entries. -/
theorem rebuilt_eq_some_iff (more : List (Entry Term)) :
    (without key entries frame).map (fun kept => Term.normalized .map (kept ++ more) frame) =
        some result ↔
      Known key entries frame ∧ .normalized .map (others key entries ++ more) frame = result := by
  have same {kept : List (Entry Term)} (left : without key entries frame = some kept) :
      Term.normalized .map (kept ++ more) frame = .normalized .map (others key entries ++ more) frame := by
    refine Term.normalized_congr frame (Kind.Same.append ?_ (Kind.same_refl _ more))
    exact (known_of_without distinct left).2
  rw [Option.map_eq_some_iff]
  constructor
  · rintro ⟨kept, left, rfl⟩
    exact ⟨(known_of_without distinct left).1, (same left).symm⟩
  · rintro ⟨known, rfl⟩
    obtain ⟨kept, left⟩ := known.exists_without
    exact ⟨kept, left, same left⟩

theorem update_eq_some_iff : update (.collection .map entries frame) key value = some result ↔
    Known key entries frame ∧
      .normalized .map (others key entries ++ [.binding key value]) frame = result := by
  rw [← rebuilt_eq_some_iff distinct, update, collection?, if_pos rfl, Option.map_eq_bind]
  rfl

theorem remove_eq_some_iff : remove (.collection .map entries frame) key = some result ↔
    Known key entries frame ∧ .normalized .map (others key entries) frame = result := by
  rw [← List.append_nil (others key entries), ← rebuilt_eq_some_iff distinct, remove, collection?,
    if_pos rfl, Option.map_eq_bind]
  simp only [List.append_nil]
  rfl

theorem lookup_eq_some_iff : lookup (.collection .map entries frame) key = some result ↔
    key.ground = true ∧ ∃ entry ∈ entries, entry.key = key ∧ entry.held = result := by
  have unfolded : lookup (.collection .map entries frame) key = some result ↔
      ∃ index entry, locate key entries = .found index entry ∧ entry.held = result := by
    rw [lookup, collection?, if_pos rfl]
    dsimp only [Option.bind_eq_bind, Option.bind_some]
    cases locate key entries with
    | found index entry => cases entry <;> simp [Entry.held]
    | absent => simp
    | unknown => simp
  rw [unfolded]
  constructor
  · rintro ⟨index, entry, found, rfl⟩
    have ground := (locate_found_iff.mp ⟨index, entry, found⟩).1
    exact ⟨ground, entry, List.mem_of_getElem? (getElem?_of_locate found), key_of_locate found, rfl⟩
  · rintro ⟨ground, entry, member, same, rfl⟩
    obtain ⟨index, located, found⟩ := locate_found_iff.mpr ⟨ground, entry, member, same⟩
    have present := List.mem_of_getElem? (getElem?_of_locate found)
    refine ⟨index, located, found, congrArg Entry.held ?_⟩
    exact List.inj_on_of_nodup_map distinct present member ((key_of_locate found).trans same.symm)

end Equations

theorem member_eq_some_iff {kind : Kind} :
    member kind key (.collection kind entries frame) = some result ↔ key.ground = true ∧
      ((∃ entry ∈ entries, entry.key = key) ∧ result = .truth ∨
        frame = none ∧ (∀ entry ∈ entries, entry.key.ground = true ∧ entry.key ≠ key) ∧
          result = .falsity) := by
  rw [member_collection]
  constructor
  · intro made
    split at made
    · next index entry found =>
      obtain ⟨ground, present⟩ := locate_found_iff.mp ⟨index, entry, found⟩
      exact ⟨ground, .inl ⟨present, (Option.some.inj made).symm⟩⟩
    · next absent =>
      obtain ⟨ground, apart⟩ := locate_absent_iff.mp absent
      exact ⟨ground, .inr ⟨rfl, apart, (Option.some.inj made).symm⟩⟩
    · cases made
  · rintro ⟨ground, ⟨present, rfl⟩ | ⟨rfl, apart, rfl⟩⟩
    · obtain ⟨index, entry, found⟩ := locate_found_iff.mpr ⟨ground, present⟩
      rw [found]
    · rw [locate_absent_iff.mpr ⟨ground, apart⟩]

/-- The second entries are the first ones with the key set to the value. -/
def Sets (key value : Term) (entries entries' : List (Entry Term)) : Prop :=
  ∀ entry, entry ∈ entries' ↔ entry ∈ others key entries ∨ entry = .binding key value

/-- An update of a map in canonical form is one: it sets the key, and the frame stays. -/
theorem sets_of_update (canonical : Term.normalized .map entries frame = .collection .map entries frame)
    (distinct : (entries.map Entry.key).Nodup)
    (made : update (.collection .map entries frame) key value = some result) :
    Known key entries frame ∧ ∃ entries', result = .collection .map entries' frame ∧
      Sets key value entries entries' ∧ (entries'.map Entry.key).Nodup ∧
      Term.normalized .map entries' frame = .collection .map entries' frame := by
  obtain ⟨known, rfl⟩ := (update_eq_some_iff distinct).mp made
  obtain ⟨_, sealed, _⟩ := Term.normalized_eq_self_iff.mp canonical
  have filled : others key entries ++ [Entry.binding key value] ≠ [] := by simp
  have apart : ((others key entries ++ [Entry.binding key value]).map Entry.key).Nodup := by
    rw [List.map_append, List.nodup_append]
    refine ⟨distinct.sublist (List.filter_sublist.map _), List.nodup_singleton _, ?_⟩
    rintro _ elsewhere _ here rfl
    obtain ⟨entry, member, rfl⟩ := List.mem_map.mp elsewhere
    exact (mem_others.mp member).2 (List.mem_singleton.mp here)
  have perm : (Term.arrange .map (others key entries ++ [Entry.binding key value])).Perm _ :=
    Term.arrange_perm_of_nodup fun _ => List.Nodup.of_map Entry.key apart
  have spliced : (Term.splice .map (others key entries ++ [Entry.binding key value]) frame).1 ≠ [] :=
    Term.splice_ne_nil filled
  have unfolded := Term.normalized_eq_collection spliced
  rw [Term.splice_of_kind sealed] at unfolded
  refine ⟨known, _, unfolded, fun entry => ?_, ?_, ?_⟩
  · rw [Term.mem_arrange, List.mem_append, List.mem_singleton]
  · exact (perm.map Entry.key).nodup_iff.mpr apart
  · refine Term.normalized_eq_self_iff.mpr ⟨Term.arrange_arrange _ _, sealed, fun bare => ?_⟩
    exact absurd (Term.arrange_eq_nil.mp bare) filled

namespace Sets

variable (sets : Sets key value entries entries')
include sets

theorem known (ground : key.ground = true) (frame : Option Term) : Known key entries' frame :=
  ⟨ground, .inl ⟨_, (sets _).mpr (.inr rfl), rfl⟩⟩

private theorem mem_others_iff : entry ∈ others key entries' ↔ entry ∈ others key entries := by
  rw [mem_others, sets]
  constructor
  · rintro ⟨kept | rfl, differ⟩
    · exact kept
    · exact absurd rfl differ
  · exact fun kept => ⟨.inl kept, (mem_others.mp kept).2⟩

/-- Under another key the same entries stand. -/
theorem mem_iff (differ : other ≠ key) (here : entry.key = other) :
    entry ∈ entries' ↔ entry ∈ entries := by
  rw [sets, mem_others]
  constructor
  · rintro (⟨member, _⟩ | rfl)
    · exact member
    · exact absurd here.symm differ
  · exact fun member => .inl ⟨member, here ▸ differ⟩

theorem exists_iff (differ : other ≠ key) {holds : Entry Term → Prop} :
    (∃ entry ∈ entries', entry.key = other ∧ holds entry) ↔
      ∃ entry ∈ entries, entry.key = other ∧ holds entry := by
  refine exists_congr fun entry => ?_
  by_cases here : entry.key = other
  · rw [sets.mem_iff differ here]
  · simp [here]

theorem present_iff (differ : other ≠ key) :
    (∃ entry ∈ entries', entry.key = other) ↔ ∃ entry ∈ entries, entry.key = other := by
  have any : (∃ entry ∈ entries', entry.key = other ∧ True) ↔
      ∃ entry ∈ entries, entry.key = other ∧ True := sets.exists_iff differ
  simpa only [and_true] using any

theorem absent_iff (differ : other ≠ key) (ground : key.ground = true) :
    (∀ entry ∈ entries', entry.key.ground = true ∧ entry.key ≠ other) ↔
      ∀ entry ∈ entries, entry.key.ground = true ∧ entry.key ≠ other := by
  constructor
  · intro apart entry member
    by_cases here : entry.key = key
    · exact ⟨here ▸ ground, here ▸ differ.symm⟩
    · exact apart entry ((sets entry).mpr (.inl (mem_others.mpr ⟨member, here⟩)))
  · intro apart entry member
    rcases (sets entry).mp member with kept | rfl
    · exact apart entry (mem_others.mp kept).1
    · exact ⟨ground, differ.symm⟩

theorem known_iff (differ : other ≠ key) (ground : key.ground = true) :
    Known other entries' frame ↔ Known other entries frame := by
  have present := sets.present_iff differ
  have absent := sets.absent_iff differ ground
  constructor
  · rintro ⟨groundOther, decided⟩
    exact ⟨groundOther, decided.imp present.mp (And.imp_right absent.mp)⟩
  · rintro ⟨groundOther, decided⟩
    exact ⟨groundOther, decided.imp present.mpr (And.imp_right absent.mpr)⟩

/-- What the key was set to is forgotten when the key is taken out or set anew. -/
theorem normalized_others (more : List (Entry Term)) (frame : Option Term) :
    Term.normalized .map (others key entries' ++ more) frame =
      .normalized .map (others key entries ++ more) frame := by
  refine Term.normalized_congr frame (Kind.Same.append ?_ (Kind.same_refl _ more))
  exact fun entry => sets.mem_others_iff

/-- Two keys may be set in either order. -/
theorem normalized_swap (differ : other ≠ key) {entries'' : List (Entry Term)}
    (sets' : Sets other value' entries entries'') (frame : Option Term) :
    Term.normalized .map (others other entries' ++ [.binding other value']) frame =
      .normalized .map (others key entries'' ++ [.binding key value]) frame := by
  refine Term.normalized_congr frame fun entry => ?_
  simp only [List.mem_append, List.mem_singleton, mem_others, sets entry, sets' entry]
  constructor
  · rintro (⟨⟨member, away⟩ | rfl, away'⟩ | rfl)
    · exact .inl ⟨.inl ⟨member, away'⟩, away⟩
    · exact .inr rfl
    · exact .inl ⟨.inr rfl, differ⟩
  · rintro (⟨⟨member, away⟩ | rfl, away'⟩ | rfl)
    · exact .inl ⟨.inl ⟨member, away'⟩, away⟩
    · exact .inr rfl
    · exact .inl ⟨.inr rfl, differ.symm⟩

end Sets

section Laws

variable (distinct : (entries.map Entry.key).Nodup) (distinct' : (entries'.map Entry.key).Nodup)
  (sets : Sets key value entries entries') (ground : key.ground = true)
include distinct' sets ground

private theorem lookup_set : lookup (.collection .map entries' frame) key = some value :=
  (lookup_eq_some_iff distinct').mpr ⟨ground, _, (sets _).mpr (.inr rfl), rfl, rfl⟩

omit distinct' in
private theorem member_set : member .map key (.collection .map entries' frame) = some .truth :=
  member_eq_some_iff.mpr ⟨ground, .inl ⟨⟨_, (sets _).mpr (.inr rfl), rfl⟩, rfl⟩⟩

omit distinct' in
private theorem member_set_other (differ : other ≠ key) : member .map other (.collection .map entries' frame) =
    member .map other (.collection .map entries frame) := by
  refine Option.ext fun result => ?_
  rw [member_eq_some_iff, member_eq_some_iff, sets.present_iff differ, sets.absent_iff differ ground]

include distinct

omit ground in
private theorem lookup_set_other (differ : other ≠ key) : lookup (.collection .map entries' frame) other =
    lookup (.collection .map entries frame) other := by
  refine Option.ext fun result => ?_
  rw [lookup_eq_some_iff distinct', lookup_eq_some_iff distinct, sets.exists_iff differ]

private theorem remove_set (known : Known key entries frame) : remove (.collection .map entries' frame) key =
    remove (.collection .map entries frame) key := by
  refine Option.ext fun result => ?_
  have same := sets.normalized_others [] frame
  simp only [List.append_nil] at same
  rw [remove_eq_some_iff distinct', remove_eq_some_iff distinct, same]
  exact and_congr_left fun _ => iff_of_true (sets.known ground frame) known

private theorem update_set (known : Known key entries frame) :
    update (.collection .map entries' frame) key value' =
      update (.collection .map entries frame) key value' := by
  refine Option.ext fun result => ?_
  rw [update_eq_some_iff distinct', update_eq_some_iff distinct, sets.normalized_others]
  exact and_congr_left fun _ => iff_of_true (sets.known ground frame) known

/-- Setting another key afterwards is setting it before. -/
theorem update_set_other (canonical : Term.normalized .map entries frame = .collection .map entries frame)
    (known : Known key entries frame) (differ : other ≠ key) :
    update (.collection .map entries' frame) other value' =
      (update (.collection .map entries frame) other value').bind (update · key value) := by
  cases made : update (.collection .map entries frame) other value' with
  | none =>
    have unknown : ¬Known other entries frame := by
      intro known
      cases made.symm.trans ((update_eq_some_iff distinct).mpr ⟨known, rfl⟩)
    rw [Option.bind_none, Option.eq_none_iff_forall_not_mem]
    intro result updated
    exact unknown ((sets.known_iff differ ground).mp ((update_eq_some_iff distinct').mp updated).1)
  | some first =>
    obtain ⟨knownOther, entries'', rfl, sets', distinct'', _⟩ := sets_of_update canonical distinct made
    rw [Option.bind_some]
    refine ((update_eq_some_iff distinct').mpr ⟨(sets.known_iff differ ground).mpr knownOther, ?_⟩).trans
      ((update_eq_some_iff distinct'').mpr ⟨?_, rfl⟩).symm
    · exact sets.normalized_swap differ sets' frame
    · exact (sets'.known_iff differ.symm knownOther.ground).mpr known

end Laws

/-- Let a map in canonical form have distinct keys. Where an update of a key gives a map, that map is in
canonical form with distinct keys and has the value under the key; under another key nothing changes;
taking the key out or setting it anew forgets the update; and setting another key afterwards is
setting it before, where it is known just as well. -/
theorem update_lawful (canonical : Term.normalized .map entries frame = .collection .map entries frame)
    (distinct : (entries.map Entry.key).Nodup) (differ : other ≠ key) {updated : Term}
    (made : apply .mapUpdate [.collection .map entries frame, key, value] = some updated) :
    (∃ entries', updated = .collection .map entries' frame ∧ (entries'.map Entry.key).Nodup ∧
        Term.normalized .map entries' frame = .collection .map entries' frame) ∧
      ((Term.collection .map entries frame).Canonical → key.Canonical → value.Canonical →
        updated.Canonical) ∧
      apply .mapLookup [updated, key] = some value ∧
      apply .mapInKeys [key, updated] = some .truth ∧
      apply .mapLookup [updated, other] = apply .mapLookup [.collection .map entries frame, other] ∧
      apply .mapInKeys [other, updated] = apply .mapInKeys [other, .collection .map entries frame] ∧
      apply .mapRemove [updated, key] = apply .mapRemove [.collection .map entries frame, key] ∧
      apply .mapUpdate [updated, key, value'] =
        apply .mapUpdate [.collection .map entries frame, key, value'] ∧
      apply .mapUpdate [updated, other, value'] =
        (apply .mapUpdate [.collection .map entries frame, other, value']).bind fun first =>
          apply .mapUpdate [first, key, value] := by
  obtain ⟨known, entries', rfl, sets, distinct', canonical'⟩ := sets_of_update canonical distinct made
  have ground := known.ground
  refine ⟨⟨entries', rfl, distinct', canonical'⟩, fun whole ofKey ofValue => ?_, ?_⟩
  · refine .collection (fun entry member part inside => ?_) whole.of_frame canonical'
    rcases (sets entry).mp member with kept | rfl
    · exact whole.of_entry entry (mem_others.mp kept).1 part inside
    · rcases List.mem_pair.mp inside with rfl | rfl
      · exact ofKey
      · exact ofValue
  · refine ⟨lookup_set distinct' sets ground, member_set sets ground, ?_, ?_, ?_, ?_, ?_⟩
    · exact lookup_set_other distinct distinct' sets differ
    · exact member_set_other sets ground differ
    · exact remove_set distinct distinct' sets ground known
    · exact update_set distinct distinct' sets ground known
    · exact update_set_other distinct distinct' sets ground canonical known differ

/-- A map with a symbolic key and a frame. Of the keys that it shows, one is set to a symbolic value
and then the other one. -/
theorem update_lawful_open :
    let a := Term.ofString "a"
    let b := Term.ofString "b"
    let opened (atA atB : Term) : Term := .collection .map
      [.binding (.var ⟨"K", .string⟩) (.ofInt 1), .binding a atA, .binding b atB]
      (some (.var ⟨"M", .map⟩))
    let before := opened (.ofInt 2) (.ofInt 3)
    let after := opened (.var ⟨"X", .int⟩) (.ofInt 3)
    apply .mapUpdate [before, a, .var ⟨"X", .int⟩] = some after ∧
      apply .mapLookup [after, b] = some (.ofInt 3) ∧
      apply .mapRemove [after, a] = apply .mapRemove [before, a] ∧
      apply .mapUpdate [after, b, .ofInt 4] =
        (apply .mapUpdate [before, b, .ofInt 4]).bind (fun first =>
          apply .mapUpdate [first, a, .var ⟨"X", .int⟩]) ∧
      apply .mapUpdate [after, b, .ofInt 4] = some (opened (.var ⟨"X", .int⟩) (.ofInt 4)) := by
  intro a b opened before after
  have made : apply .mapUpdate [before, a, .var ⟨"X", .int⟩] = some after := by
    decide +kernel
  obtain ⟨_, _, _, _, elsewhere, _, removed, _, commutes⟩ :=
    @update_lawful a b (.var ⟨"X", .int⟩) (.ofInt 4) _ _ (by decide +kernel) (by decide +kernel)
      (by decide) after made
  refine ⟨made, elsewhere.trans ?_, removed, commutes, ?_⟩
  · decide +kernel
  · decide +kernel

end Hook

end Reach
