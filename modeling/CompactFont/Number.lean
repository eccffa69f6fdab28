import CompactFont.Reader

/-!
Integers as DICT data and charstrings write them. Bytes from 32 on start an integer of one or two
bytes in both; the wider forms have lead bytes of their own.
-/

set_option autoImplicit false

namespace CompactFont.Number

def Fits (value : Int) : Prop := -0x80000000 ≤ value ∧ value < 0x80000000

instance (value : Int) : Decidable (Fits value) := inferInstanceAs (Decidable (_ ∧ _))

variable {ε : Type} [Failure ε]

def int32 (value : Int) : ReaderOf ε Int := Ranged.within (Fits value) value

/-- Reads the rest of an integer whose lead byte is in 32 to 254. -/
def readShort (lead : UInt8) : ReaderOf ε Int := do
  if lead ≤ 246 then int32 ((lead.toNat : Int) - 139)
  else
    let low ← Reader.u8
    if lead ≤ 250 then
      let high ← int32 ((lead.toNat : Int) - 247)
      let scaled ← int32 (high * 256)
      int32 (scaled + low.toNat + 108)
    else
      let high ← int32 ((lead.toNat : Int) - 251)
      let scaled ← int32 (-high * 256)
      let rest ← int32 (scaled - low.toNat)
      int32 (rest - 108)

def leadOfTwo : UInt8 := 28

def leadOfFour : UInt8 := 29

/-- Five bytes, whatever the value: room for an integer that is not known yet. -/
def encodeFixed (value : Int) : List UInt8 := leadOfFour :: BigEndian.encodeSigned 4 value

def encodeShortest (value : Int) : List UInt8 :=
  if -107 ≤ value ∧ value ≤ 107 then [UInt8.ofNat (value + 139).toNat]
  else if 108 ≤ value ∧ value ≤ 1131 then BigEndian.encode 2 (247 * 256 + (value - 108).toNat)
  else if -1131 ≤ value ∧ value ≤ -108 then BigEndian.encode 2 (251 * 256 + (-value - 108).toNat)
  else if -0x8000 ≤ value ∧ value < 0x8000 then leadOfTwo :: BigEndian.encodeSigned 2 value
  else encodeFixed value

def fixedLength : Nat := 5

theorem length_encodeFixed (value : Int) : (encodeFixed value).length = fixedLength := by
  simp only [encodeFixed, BigEndian.encodeSigned, List.length_cons, BigEndian.length_encode,
    fixedLength]

end CompactFont.Number
