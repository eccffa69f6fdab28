/-!
UTF-8 decoding that never fails. Font names are arbitrary bytes; each maximal run of bytes that
begins a character but does not complete it reads as one replacement character.
-/

set_option autoImplicit false

namespace CompactFont.Text.Utf8

def replacement : Char := '\uFFFD'

/-- What may follow a lead byte: how many continuation bytes, and the bounds of the first of them.
The bounds exclude overlong forms, surrogates and numbers above the last code point. -/
structure Continuation where
  count : Nat
  low : UInt8
  high : UInt8

def continuation? (lead : UInt8) : Option Continuation :=
  if lead < 0xC2 then none
  else if lead ≤ 0xDF then some ⟨1, 0x80, 0xBF⟩
  else if lead = 0xE0 then some ⟨2, 0xA0, 0xBF⟩
  else if lead = 0xED then some ⟨2, 0x80, 0x9F⟩
  else if lead ≤ 0xEF then some ⟨2, 0x80, 0xBF⟩
  else if lead = 0xF0 then some ⟨3, 0x90, 0xBF⟩
  else if lead ≤ 0xF3 then some ⟨3, 0x80, 0xBF⟩
  else if lead = 0xF4 then some ⟨3, 0x80, 0x8F⟩
  else none

def isContinuation (byte : UInt8) : Bool := 0x80 ≤ byte && byte ≤ 0xBF

def accepted (form : Continuation) : List UInt8 → List UInt8
  | [] => []
  | first :: rest =>
    if form.low ≤ first && first ≤ form.high then
      first :: (rest.take (form.count - 1)).takeWhile isContinuation
    else []

def codePoint (lead : UInt8) (count : Nat) (bytes : List UInt8) : Nat :=
  bytes.foldl (fun value byte => value * 64 + byte.toNat % 64) (lead.toNat % (1 <<< (6 - count)))

/-- The first character of a text that starts with `lead`, and how many of the bytes after `lead` it
takes. -/
def first (lead : UInt8) (rest : List UInt8) : Char × Nat :=
  if lead < 0x80 then (Char.ofNat lead.toNat, 0)
  else
    match continuation? lead with
    | none => (replacement, 0)
    | some form =>
      let bytes := accepted form rest
      if bytes.length = form.count then
        (Char.ofNat (codePoint lead form.count bytes), form.count)
      else (replacement, bytes.length)

/-- Appends the text that bytes spell to `text`. The first `taken` bytes belong to a character that
was appended before. -/
def append (text : String) : (taken : Nat) → List UInt8 → String
  | _, [] => text
  | taken + 1, _ :: rest => append text taken rest
  | 0, lead :: rest => append (text.push (first lead rest).1) (first lead rest).2 rest

def decode (bytes : ByteArray) : String := append "" 0 bytes.data.toList

end CompactFont.Text.Utf8
