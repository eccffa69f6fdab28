import CompactFont.Dict.Entry
import CompactFont.Index

/-!
Private DICTs hold the local subroutines of a font, or of one Font DICT of a CID-keyed font. A
Private DICT is located by a size and an offset, its Local Subr INDEX by an offset from the start of
the Private DICT.
-/

set_option autoImplicit false

namespace CompactFont

structure PrivateDict where
  span : Span
  entries : Array Dict.Entry
  subrs : Option Index
  deriving DecidableEq

variable {ε : Type} [Failure ε]

namespace PrivateDict

/-- The Local Subr INDEX that an entry locates, if it is a `Subrs` entry; otherwise the one that was
found before. -/
def locateSubrs (bytes : ByteArray) (start : Nat) (found : Option Index) (entry : Dict.Entry) :
    Except ε (Option Index) :=
  if entry.operator = .subrs then do
    let offset ← entry.natural 0
    let index ← ReadError.attributeTo .localSubrs (Index.readAt bytes (start + offset))
    return some index
  else return found

/-- Reads the Private DICT that fills a span. Of several Local Subr INDEXes the last one counts. -/
def readSpan (bytes : ByteArray) (span : Span) : Except ε PrivateDict := do
  let entries ← Dict.readSpan bytes span
  let subrs ← entries.foldlM (locateSubrs bytes span.start) none
  return ⟨span, entries, subrs⟩

def ofEntry (bytes : ByteArray) (entry : Dict.Entry) : Except ε PrivateDict := do
  let size ← entry.natural 0
  let offset ← entry.natural 1
  ReadError.attributeTo .privateDict (readSpan bytes ⟨offset, offset + size⟩)

end PrivateDict

structure FontDict where
  entries : Array Dict.Entry
  privateDict : Option PrivateDict
  deriving DecidableEq

namespace FontDict

/-- Reads the Font DICT that fills a span. Of several `Private` entries the first one counts. -/
def readSpan (bytes : ByteArray) (span : Span) : Except ε FontDict := do
  let entries ← Dict.readSpan bytes span
  match entries.find? (·.operator = .privateDict) with
  | none => return ⟨entries, none⟩
  | some entry => return ⟨entries, some (← PrivateDict.ofEntry bytes entry)⟩

def readArray (bytes : ByteArray) (offset : Nat) : Except ε (Array FontDict) := do
  let index ← Index.readAt bytes offset
  (Array.range (← index.count)).mapM fun i => do readSpan bytes (← index.locate i)

end FontDict
end CompactFont
