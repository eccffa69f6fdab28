import CompactFont.Font

/-!
A font table: a header, the names and Top DICTs of its fonts, and the strings and global subroutines
that all of them share.
-/

set_option autoImplicit false

namespace CompactFont

structure Table where
  bytes : ByteArray
  headerSize : Nat
  names : Index
  topDicts : Index
  strings : Index
  globalSubrs : Index
  fonts : Array Font

namespace Table

def leastHeaderSize : Nat := 4

variable {ε : Type} [Failure ε]

def readHeader : ReaderOf ε Nat := do
  let major ← Reader.u8
  if major ≠ 1 then
    Reader.failAt 0 (.unexpectedVersion major)
  Reader.skip 1
  let size ← Reader.u8
  if size.toNat < leastHeaderSize then
    Reader.fail (.offsetOutOfBounds size.toNat)
  Reader.skip 1
  return size.toNat

structure Directory where
  headerSize : Nat
  names : Index
  topDicts : Index
  strings : Index
  globalSubrs : Index

def readDirectory : ReaderOf ε Directory := do
  let headerSize ← readHeader.inPart .header
  Reader.seek headerSize
  let names ← Index.read.inPart .nameIndex
  let topDicts ← Index.read.inPart .topDict
  let strings ← Index.read.inPart .stringIndex
  let globalSubrs ← Index.read.inPart .globalSubrs
  return { headerSize, names, topDicts, strings, globalSubrs }

def read (bytes : ByteArray) : Except ε Table := do
  let ⟨headerSize, names, topDicts, strings, globalSubrs⟩ ←
    readDirectory.readAt (.whole bytes) 0
  let nameCount ← names.count
  let topDictCount ← topDicts.count
  if nameCount ≠ topDictCount then
    ReadError.attributeTo .topDict
      (.error (Failure.ofError (.atOffset headerSize (.fontCountsDiffer nameCount topDictCount))))
  let fonts ← (Array.range nameCount).mapM fun i => do
    Font.read bytes (← names.locate i) (← topDicts.locate i)
  return { bytes, headerSize, names, topDicts, strings, globalSubrs, fonts }

def fontIndex? (table : Table) (name : String) : Option Nat :=
  table.fonts.findIdx? (·.name == name)

/-- The number of the first string of a table; those before it are standard ones, which no table
contains. -/
def firstStringId : Nat := 391

def nextStringId (table : Table) : Nat := firstStringId + table.strings.size

end Table
end CompactFont
