/-!
DICT operators. Those that locate a structure or change how a font is read are told apart; every
other operator keeps its byte, so that reading and writing an operator loses nothing.
-/

set_option autoImplicit false

namespace CompactFont.Dict

inductive Operator where
  | charset
  | encoding
  | charStrings
  | privateDict
  | subrs
  | charstringType
  | ros
  | cidCount
  | fdArray
  | fdSelect
  | fontName
  /-- any other one-byte operator -/
  | other (byte : UInt8)
  /-- any other operator that follows an escape byte -/
  | otherEscaped (byte : UInt8)
  deriving DecidableEq

namespace Operator

def escape : UInt8 := 12

def ofByte (byte : UInt8) : Operator :=
  match byte with
  | 15 => charset
  | 16 => encoding
  | 17 => charStrings
  | 18 => privateDict
  | 19 => subrs
  | _ => other byte

def ofEscaped (byte : UInt8) : Operator :=
  match byte with
  | 6 => charstringType
  | 30 => ros
  | 34 => cidCount
  | 36 => fdArray
  | 37 => fdSelect
  | 38 => fontName
  | _ => otherEscaped byte

def encode : Operator → List UInt8
  | charset => [15]
  | encoding => [16]
  | charStrings => [17]
  | privateDict => [18]
  | subrs => [19]
  | charstringType => [escape, 6]
  | ros => [escape, 30]
  | cidCount => [escape, 34]
  | fdArray => [escape, 36]
  | fdSelect => [escape, 37]
  | fontName => [escape, 38]
  | other byte => [byte]
  | otherEscaped byte => [escape, byte]

def title : Operator → String
  | charset => "charset"
  | encoding => "Encoding"
  | charStrings => "CharStrings"
  | privateDict => "Private"
  | subrs => "Subrs"
  | charstringType => "CharstringType"
  | ros => "ROS"
  | cidCount => "CIDCount"
  | fdArray => "FDArray"
  | fdSelect => "FDSelect"
  | fontName => "FontName"
  | other _ | otherEscaped _ => "unknown"

theorem encode_ofByte (byte : UInt8) : (ofByte byte).encode = [byte] := by
  unfold ofByte
  split <;> rfl

theorem encode_ofEscaped (byte : UInt8) : (ofEscaped byte).encode = [escape, byte] := by
  unfold ofEscaped
  split <;> rfl

end Operator
end CompactFont.Dict
