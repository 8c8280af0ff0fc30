/-! Names of the builtin labels. -/

namespace Reach.Label

def intAdd := "_+Int_"
def intSub := "_-Int_"
def intMul := "_*Int_"
def intDiv := "_/Int_"
def intMod := "_%Int_"
def intMin := "minInt"
def intMax := "maxInt"
def intAbs := "absInt"
def intLt := "_<Int_"
def intLe := "_<=Int_"
def intGt := "_>Int_"
def intGe := "_>=Int_"
def intEq := "_==Int_"
def intNe := "_=/=Int_"

def boolAnd := "_andBool_"
def boolOr := "_orBool_"
def boolNot := "notBool_"
def boolImplies := "_impliesBool_"
def boolXor := "_xorBool_"
def boolEq := "_==Bool_"

def stringConcat := "_+String_"
def stringLength := "lengthString"
def stringEq := "_==String_"

def termEq := "_==K_"
def termNe := "_=/=K_"

def mapLookup := "Map:lookup"
def mapUpdate := "Map:update"
def mapRemove := "Map:remove"
def mapInKeys := "_in_keys(_)"
def mapSize := "sizeMap"
def setIn := "Set:in"
def setSize := "sizeSet"
def listSize := "sizeList"

def sha256 := "sha256"

end Reach.Label
