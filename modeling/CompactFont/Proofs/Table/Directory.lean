import CompactFont.Proofs.Index.Form
import CompactFont.Table

/-!
When reading the start of a table succeeds: a header of four fixed bytes and as many more as it
says, and four INDEXes one after the other.
-/

set_option autoImplicit false

namespace CompactFont.Table

open Reader

def Directory.spans (directory : Directory) : List Span :=
  [⟨0, directory.headerSize⟩, directory.names.span, directory.topDicts.span, directory.strings.span,
    directory.globalSubrs.span]

def spans (table : Table) : List Span :=
  Directory.spans ⟨table.headerSize, table.names, table.topDicts, table.strings, table.globalSubrs⟩

theorem run_readHeader_eq_ok {source : Source} {pos size stop : Nat} :
    readHeader.run source pos = .ok size stop ↔
      ∃ minor offsetSize, source.Holds pos [1, minor, UInt8.ofNat size, offsetSize] ∧
        leastHeaderSize ≤ size ∧ size < 256 ∧ stop = pos + 4 := by
  unfold readHeader
  constructor
  · intro read
    obtain ⟨major, _, first, read⟩ := run_bind_eq_ok.1 read
    obtain ⟨holdsMajor, rfl⟩ := run_u8_eq_ok.1 first
    split at read
    · cases read
    next known =>
    obtain ⟨_, _, second, read⟩ := run_bind_eq_ok.1 read
    obtain ⟨enough, rfl⟩ := run_skip_eq_ok.1 second
    obtain ⟨byte, _, third, read⟩ := run_bind_eq_ok.1 read
    obtain ⟨holdsSize, rfl⟩ := run_u8_eq_ok.1 third
    split at read
    · cases read
    next large =>
    obtain ⟨_, _, fourth, read⟩ := run_bind_eq_ok.1 read
    obtain ⟨more, rfl⟩ := run_skip_eq_ok.1 fourth
    obtain ⟨rfl, rfl⟩ := run_pure_eq_ok.1 read
    have boundSize : pos + 1 + 1 + 1 ≤ source.stop := holdsSize.2
    have roomMinor : pos + 1 + 1 ≤ source.stop := by omega
    have roomLast : pos + 1 + 1 + 1 + 1 ≤ source.stop := by omega
    obtain ⟨minor, holdsMinor, single⟩ := Source.Holds.exists_of_le roomMinor
    obtain ⟨offsetSize, holdsLast, singleLast⟩ := Source.Holds.exists_of_le roomLast
    obtain ⟨minor, rfl⟩ := List.length_eq_one_iff.1 single
    obtain ⟨offsetSize, rfl⟩ := List.length_eq_one_iff.1 singleLast
    rw [not_not.1 known] at holdsMajor
    rw [UInt8.ofNat_toNat]
    exact ⟨minor, offsetSize,
      holdsMajor.append (holdsMinor.append (holdsSize.append holdsLast)),
      Nat.not_lt.1 large, byte.toNat_lt, rfl⟩
  · intro ⟨minor, offsetSize, holds, large, small, ends⟩
    have byte : (UInt8.ofNat size).toNat = size := by
      rw [UInt8.toNat_ofNat', Nat.mod_eq_of_lt small]
    have bound : pos + 4 ≤ source.stop := holds.2
    have afterMinor := holds.tail.tail
    refine run_bind_eq_ok.2 ⟨1, pos + 1, run_u8_eq_ok.2 ⟨holds.head, rfl⟩, ?_⟩
    rw [if_neg (by decide)]
    refine run_bind_eq_ok.2 ⟨(), pos + 1 + 1, run_skip_eq_ok.2 ⟨by omega, rfl⟩, ?_⟩
    refine run_bind_eq_ok.2 ⟨UInt8.ofNat size, pos + 1 + 1 + 1,
      run_u8_eq_ok.2 ⟨afterMinor.head, rfl⟩, ?_⟩
    rw [byte, if_neg (Nat.not_lt.2 large)]
    refine run_bind_eq_ok.2 ⟨(), pos + 1 + 1 + 1 + 1, run_skip_eq_ok.2 ⟨by omega, rfl⟩, ?_⟩
    rw [ends]
    rfl

/-- Four INDEXes follow the header, the size of which is part of it. -/
theorem run_readDirectory_eq_ok {source : Source} {stop : Nat} {directory : Directory} :
    readDirectory.run source 0 = .ok directory stop ↔
      (∃ minor offsetSize,
        source.Holds 0 [1, minor, UInt8.ofNat directory.headerSize, offsetSize]) ∧
      leastHeaderSize ≤ directory.headerSize ∧ directory.headerSize < 256 ∧
      directory.headerSize ≤ source.stop ∧ ∃ afterNames afterTopDicts afterStrings,
        Index.read.run source directory.headerSize = .ok directory.names afterNames ∧
        Index.read.run source afterNames = .ok directory.topDicts afterTopDicts ∧
        Index.read.run source afterTopDicts = .ok directory.strings afterStrings ∧
        Index.read.run source afterStrings = .ok directory.globalSubrs stop := by
  obtain ⟨headerSize, names, topDicts, strings, globalSubrs⟩ := directory
  unfold readDirectory
  simp only [run_bind_eq_ok, run_inPart_eq_ok, run_readHeader_eq_ok, run_seek_eq_ok, run_pure_eq_ok,
    Directory.mk.injEq]
  constructor
  · intro ⟨_, _, ⟨minor, offsetSize, holds, large, small, _⟩, _, _, ⟨inside, rfl⟩, _, first,
      readNames, _, second, readTopDicts, _, third, readStrings, _, _, readGlobalSubrs, same, ends⟩
    obtain ⟨rfl, rfl, rfl, rfl, rfl⟩ := same
    subst ends
    exact ⟨⟨minor, offsetSize, holds⟩, large, small, inside, first, second, third, readNames,
      readTopDicts, readStrings, readGlobalSubrs⟩
  · intro ⟨⟨minor, offsetSize, holds⟩, large, small, inside, first, second, third, readNames,
      readTopDicts, readStrings, readGlobalSubrs⟩
    exact ⟨headerSize, _, ⟨minor, offsetSize, holds, large, small, rfl⟩, (), _, ⟨inside, rfl⟩,
      names, first, readNames, topDicts, second, readTopDicts, strings, third, readStrings,
      globalSubrs, stop, readGlobalSubrs, ⟨rfl, rfl, rfl, rfl, rfl⟩, rfl⟩

end CompactFont.Table
