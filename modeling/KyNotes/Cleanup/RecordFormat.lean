import KyNotes.Cleanup.Cells
import KyNotes.Lib.Varint
import KyNotes.Server.Schema
import Mathlib.Order.Bounds.Defs

/-!
# The record format (`internal/storage/cleanup_rows.go`)

A record is the length of its header, the serial types of its columns and their bodies; the length counts its own varint,
and more than one length may count itself. `sqliteRecordSize_isLeast`: the loop of `sqliteRecordSize` ends, and what it
returns is the size of the smallest record of the columns.
-/

namespace KyNotes.Cleanup

/-- A column of a record: its serial type, and the bytes of its body. -/
structure Column where
  serial : ℕ
  bytes : ℕ

/-- A record of some columns: the varint that comes first is the length of the header with that varint in it. -/
def IsRecord (columns : List Column) (record : Bytes) : Prop :=
  ∃ (length : ℕ) (body : Bytes),
    let header := Varint.encode length ++ columns.flatMap fun c => Varint.encode c.serial
    record = header ++ body ∧ header.length = length ∧ body.length = (columns.map Column.bytes).sum

/-- The loop of `sqliteRecordSize` from a size on; nothing while it has not ended. -/
def recordSizeFrom (header body : ℕ) : ℕ → ℕ → Option ℕ
  | 0, _ => none
  | steps + 1, size =>
    if sqliteVarintBytes (header + size) = size then some (header + size + body) else recordSizeFrom header body steps (size + 1)

/-- The bytes of the serial types. -/
def serialBytes (columns : List Column) : ℕ := (columns.map fun c => sqliteVarintBytes c.serial).sum

def bodyBytes (columns : List Column) : ℕ := (columns.map Column.bytes).sum

theorem length_encode (n : ℕ) : (Varint.encode n).length = sqliteVarintBytes n := by
  have hlength := Varint.length_encode_le n
  have hbytes := sqliteVarintBytes_le n
  have hpos := sqliteVarintBytes_pos n
  have hiff : ∀ k, 1 ≤ k → k ≤ 8 → ((Varint.encode n).length ≤ k ↔ sqliteVarintBytes n ≤ k) := fun k hk hk' =>
    (Varint.length_encode_le_iff hk hk').trans (sqliteVarintBytes_le_iff hk hk').symm
  rcases Nat.lt_trichotomy (Varint.encode n).length (sqliteVarintBytes n) with h | h | h
  · have hone : 1 ≤ (Varint.encode n).length := by
      unfold Varint.encode
      split <;> rw [List.length_append, List.length_singleton] <;> exact Nat.le_add_left 1 _
    have := (hiff _ hone (by omega)).mp (Nat.le_refl _)
    omega
  · exact h
  · have := (hiff _ hpos (by omega)).mpr (Nat.le_refl _)
    omega

theorem length_serials (columns : List Column) :
    (columns.flatMap fun c => Varint.encode c.serial).length = serialBytes columns := by
  rw [List.length_flatMap, serialBytes]
  congr 1
  exact List.map_congr_left fun c _ => length_encode c.serial

/-- The header of a record counts itself. -/
theorem isRecord_length_iff {columns : List Column} {n : ℕ} : (∃ record, IsRecord columns record ∧ record.length = n) ↔
    ∃ size, sqliteVarintBytes (serialBytes columns + size) = size ∧ n = serialBytes columns + size + bodyBytes columns := by
  constructor
  · rintro ⟨record, ⟨length, body, rfl, hlength, hbody⟩, rfl⟩
    rw [List.length_append, length_encode, length_serials] at hlength
    refine ⟨sqliteVarintBytes length, ?_, ?_⟩
    · rw [Nat.add_comm, hlength]
    · rw [List.length_append, List.length_append, length_encode, length_serials, hbody, bodyBytes]
      omega
  · rintro ⟨size, hsize, rfl⟩
    have hheader : (Varint.encode (serialBytes columns + size) ++ columns.flatMap fun c => Varint.encode c.serial).length =
        serialBytes columns + size := by
      rw [List.length_append, length_encode, length_serials, hsize, Nat.add_comm]
    refine ⟨_, ⟨serialBytes columns + size, List.replicate (bodyBytes columns) 0, rfl, hheader, List.length_replicate⟩, ?_⟩
    rw [List.length_append, hheader, List.length_replicate]

/-- What the loop has passed is no size of a header. -/
theorem recordSizeFrom_eq {header body steps : ℕ} : ∀ {size : ℕ}, 1 ≤ size → size ≤ headerBytes header →
    headerBytes header < size + steps → recordSizeFrom header body steps size = some (sqliteRecordSize header body) := by
  have hspec := headerBytes_spec header
  induction steps with
  | zero => exact fun _ _ _ => by omega
  | succ steps ih =>
    intro size hpos hle hlt
    rw [recordSizeFrom]
    split
    · next hself =>
      have heq : size = headerBytes header := Nat.le_antisymm hle (hspec.2 size hpos hself.le)
      rw [heq]
      rfl
    · next hself =>
      have hne : size ≠ headerBytes header := by
        rintro rfl
        exact hself hspec.1
      exact ih (by omega) (by omega) (by omega)

/-- The loop ends after nine sizes at most, and the size that it returns is that of the smallest record of the columns. -/
theorem sqliteRecordSize_isLeast (columns : List Column) :
    (∀ more, recordSizeFrom (serialBytes columns) (bodyBytes columns) (9 + more) 1 =
      some (sqliteRecordSize (serialBytes columns) (bodyBytes columns))) ∧
    IsLeast {n | ∃ record, IsRecord columns record ∧ record.length = n}
      (sqliteRecordSize (serialBytes columns) (bodyBytes columns)) := by
  obtain ⟨hself, hmin⟩ := headerBytes_spec (serialBytes columns)
  have hpos := headerBytes_pos (serialBytes columns)
  have hnine : headerBytes (serialBytes columns) ≤ 9 := hself ▸ sqliteVarintBytes_le _
  refine ⟨fun more => recordSizeFrom_eq (Nat.le_refl 1) hpos (by omega), ?_, ?_⟩
  · exact isRecord_length_iff.mpr ⟨headerBytes (serialBytes columns), hself, rfl⟩
  · intro n hn
    obtain ⟨size, hsize, rfl⟩ := isRecord_length_iff.mp hn
    have hle := hmin size (hsize ▸ sqliteVarintBytes_pos _) hsize.le
    unfold sqliteRecordSize
    omega

end KyNotes.Cleanup
