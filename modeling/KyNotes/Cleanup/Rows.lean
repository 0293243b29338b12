import KyNotes.Cleanup.Padding
import KyNotes.Cleanup.Slots
import Mathlib.Algebra.Order.BigOperators.Group.List

/-!
# Rows that a cleanup rewrites (`internal/storage/cleanup_rows.go`, `internal/storage/cleanup_slots.go`)

A sequence advance, a comment tombstone and a link revocation replace columns of a row and give it a new padding, found for
the replaced row. Where the reserve covers the growth, the row with the least padding is no larger than the stored one
(`advance_shrinks`, `tombstone_shrinks`, `revoke_shrinks`).

The text of a row is one of Unicode characters, and its columns have the types that they are declared with.
-/

namespace KyNotes.Cleanup

/-- A value of a column; of a BLOB, its length. -/
inductive Value
  | null
  | int (n : Int)
  | real
  | blob (n : Nat)
  | text (s : List Char)
deriving DecidableEq

/-- `length(CAST(s AS BLOB))`. -/
def textBytes (e : Encoding) (s : List Char) : Nat := (s.map e.bytes).sum

/-- The serial type and the bytes of a value in `sqliteRecordParts`. -/
def Value.serial (e : Encoding) : Value → Nat × Nat
  | .null => (0, 0)
  | .int n =>
    if n = 0 then (8, 0)
    else if n = 1 then (9, 0)
    else if -128 ≤ n ∧ n ≤ 127 then (1, 1)
    else if -32768 ≤ n ∧ n ≤ 32767 then (2, 2)
    else if -8388608 ≤ n ∧ n ≤ 8388607 then (3, 3)
    else if -2147483648 ≤ n ∧ n ≤ 2147483647 then (4, 4)
    else if -140737488355328 ≤ n ∧ n ≤ 140737488355327 then (5, 6)
    else (6, 8)
  | .real => (7, 8)
  | .blob n => (12 + 2 * n, n)
  | .text s => (13 + 2 * textBytes e s, textBytes e s)

def Value.headerBytes (e : Encoding) (v : Value) : Nat := sqliteVarintBytes (v.serial e).1

def Value.bodyBytes (e : Encoding) (v : Value) : Nat := (v.serial e).2

/-- A row of a table; a table has no two columns of one name. -/
structure Row where
  columns : List (String × Value)
  nodup : (columns.map Prod.fst).Nodup

namespace Row

def get (r : Row) (c : String) : Option Value := r.columns.lookup c

/-- A value in place of another one. -/
def set (r : Row) (c : String) (v : Value) : Row where
  columns := r.columns.map fun x => if x.1 = c then (c, v) else x
  nodup := by
    have h : (r.columns.map fun x => if x.1 = c then (c, v) else x).map Prod.fst = r.columns.map Prod.fst := by
      rw [List.map_map]
      refine List.map_congr_left fun x _ => ?_
      simp only [Function.comp]
      split
      · exact Eq.symm (by assumption)
      · rfl
    rw [h]
    exact r.nodup

/-- The replacement columns. -/
def apply (r : Row) (changes : List (String × Value)) : Row := changes.foldl (fun r x => r.set x.1 x.2) r

/-- `sqliteRecordParts`. -/
def sqliteRecordParts (e : Encoding) (r : Row) : Nat × Nat :=
  ((r.columns.map fun x => x.2.headerBytes e).sum, (r.columns.map fun x => x.2.bodyBytes e).sum)

/-- `sqliteRecordBytes`. -/
def sqliteRecordBytes (e : Encoding) (r : Row) : Nat :=
  let (header, body) := r.sqliteRecordParts e
  sqliteRecordSize header body

/-- The size of the record of a row with a padding in place of its own. -/
def sizeWith (e : Encoding) (r : Row) (pad : Nat) : Nat :=
  let (header, body) := (r.set "cleanup_padding" (.blob 0)).sqliteRecordParts e
  paddedSize header body pad

end Row

/-- What the code reads of the first page: its length, the byte at 20 and the word at 56. -/
structure Page where
  length : Nat
  reserved : Nat
  encoding : Encoding

def Page.usable (p : Page) : Nat := p.length - p.reserved

/-- The errors of the cleanup; `ErrCleanupInvariant` for want of a layout is apart from the others. -/
inductive RowError
  | noRows
  | scan
  | cleanupInvariant
  | noLayout (table : String)
deriving DecidableEq

/-- `cleanupRowPaddingTx`. -/
def cleanupRowPaddingTx (page : Page) (table : String) (row : Option Row) (changes : List (String × Value))
    (minimum : Nat) : Except RowError Nat :=
  if table ∉ ["comments", "containers", "sealed_share_links"] then .error .cleanupInvariant
  else if page.length < 100 then .error .cleanupInvariant
  else
    match row with
    | none => .error .noRows
    | some r =>
      let oldSize := r.sqliteRecordBytes page.encoding
      if ((r.apply changes).get "cleanup_padding").isNone then .error .cleanupInvariant
      else
        match searchPadding page.usable oldSize ((r.apply changes).sizeWith page.encoding) (page.usable + 19) minimum with
        | some pad => .ok pad
        | none => .error (.noLayout table)

/-! ## The callers -/

/-- `counterBytes`. -/
def counterBytes (n : Int) : Nat :=
  if n = 0 ∨ n = 1 then 0
  else if n ≤ 127 then 1
  else if n ≤ 32767 then 2
  else if n ≤ 8388607 then 3
  else if n ≤ 2147483647 then 4
  else if n ≤ 140737488355327 then 6
  else 8

namespace Row

/-- Scans a column into an `int64`. -/
def int (r : Row) (c : String) : Except RowError Int :=
  match r.get c with
  | some (.int n) => .ok n
  | _ => .error .scan

/-- Scans `length(CAST(c AS BLOB))` of a text. -/
def textLength (e : Encoding) (r : Row) (c : String) : Except RowError Nat :=
  match r.get c with
  | some (.text s) => .ok (textBytes e s)
  | _ => .error .scan

/-- Scans `length(c)` of a BLOB. -/
def blobLength (r : Row) (c : String) : Except RowError Nat :=
  match r.get c with
  | some (.blob n) => .ok n
  | _ => .error .scan

/-- The row, if a column of it is `''`. -/
def withEmpty (row : Option Row) (c : String) : Except RowError Row :=
  match row.filter fun r => r.get c = some (.text []) with
  | some r => .ok r
  | none => .error .noRows

end Row

/-- The columns that `AdvanceCleanupSeqTx` replaces, and the least padding. -/
def advancePlan (e : Encoding) (r : Row) (now : List Char) : Except RowError (List (String × Value) × Nat) := do
  let seq ← r.int "change_seq"
  let previous ← r.textLength e "updated_at"
  let pad ← r.blobLength "cleanup_padding"
  if seq < 0 ∨ seq = 2 ^ 63 - 1 then .error .cleanupInvariant
  else
    let next := seq + 1
    let growth := (counterBytes next - counterBytes seq) + (textBytes e now - previous)
    if growth > pad then .error .cleanupInvariant
    else .ok ([("change_seq", .int next), ("updated_at", .text now)], pad - growth)

/-- `AdvanceCleanupSeqTx`: the row that it leaves. -/
def advanceCleanupSeqTx (page : Page) (row : Option Row) (now : List Char) : Except RowError Row := do
  let r ← Row.withEmpty row "deleted_at"
  let (changes, minimum) ← advancePlan page.encoding r now
  let padding ← cleanupRowPaddingTx page "containers" (some r) changes minimum
  .ok ((r.apply changes).set "cleanup_padding" (.blob padding))

/-- The columns that `TombstoneCommentTx` replaces, and the least padding. -/
def tombstonePlan (e : Encoding) (r : Row) (now : List Char) (seq : Int) :
    Except RowError (List (String × Value) × Nat) := do
  let old ← r.int "change_seq"
  let pad ← r.blobLength "cleanup_padding"
  if old < 0 then .error .cleanupInvariant
  else
    let growth := textBytes e now + (counterBytes seq - counterBytes old)
    if growth > pad then .error .cleanupInvariant
    else .ok ([("deleted_at", .text now), ("body_ciphertext", .blob 0), ("change_seq", .int seq)], 0)

/-- `TombstoneCommentTx`: the row that it leaves. -/
def tombstoneCommentTx (page : Page) (row : Option Row) (now : List Char) (seq : Int) : Except RowError Row := do
  let r ← Row.withEmpty row "deleted_at"
  let (changes, minimum) ← tombstonePlan page.encoding r now seq
  let padding ← cleanupRowPaddingTx page "comments" (some r) changes minimum
  .ok ((r.apply changes).set "cleanup_padding" (.blob padding))

/-- The column that `RevokeSealedLinkTx` replaces, and the least padding. -/
def revokePlan (e : Encoding) (r : Row) (now : List Char) : Except RowError (List (String × Value) × Nat) := do
  let pad ← r.blobLength "cleanup_padding"
  if textBytes e now > pad then .error .cleanupInvariant
  else .ok ([("revoked_at", .text now)], pad - textBytes e now)

/-- `RevokeSealedLinkTx`: the row that it leaves; `noRows` is the answer `false`. -/
def revokeSealedLinkTx (page : Page) (row : Option Row) (owner now : List Char) : Except RowError Row := do
  let r ← Row.withEmpty (row.filter fun r => r.get "owner_user_id" = some (.text owner)) "revoked_at"
  let (changes, minimum) ← revokePlan page.encoding r now
  let padding ← cleanupRowPaddingTx page "sealed_share_links" (some r) changes minimum
  .ok ((r.apply changes).set "cleanup_padding" (.blob padding))

/-! ## Sizes -/

section Sizes

variable {e : Encoding} {r r' : Row} {c c' : String} {old v : Value} {now : List Char}

theorem Row.get_set_ne (h : c' ≠ c) : (r.set c v).get c' = r.get c' := by
  show (r.columns.map fun x => if x.1 = c then (c, v) else x).lookup c' = r.columns.lookup c'
  generalize r.columns = l
  induction l with
  | nil => rfl
  | cons x l ih =>
    obtain ⟨k, w⟩ := x
    rw [List.map_cons, List.lookup_cons]
    by_cases hk : k = c
    · subst hk
      have hne : (c' == k) = false := beq_false_of_ne h
      rw [if_pos rfl, List.lookup_cons, hne]
      exact ih
    · rw [if_neg hk, List.lookup_cons, ih]

theorem Row.get_set_self (h : r.get c = some old) : (r.set c v).get c = some v := by
  show (r.columns.map fun x => if x.1 = c then (c, v) else x).lookup c = some v
  unfold Row.get at h
  generalize r.columns = l at h
  induction l with
  | nil => cases h
  | cons x l ih =>
    obtain ⟨k, w⟩ := x
    rw [List.map_cons, List.lookup_cons]
    rw [List.lookup_cons] at h
    by_cases hk : k = c
    · rw [if_pos hk, beq_self_eq_true]
    · have hne : (c == k) = false := beq_false_of_ne (Ne.symm hk)
      rw [hne] at h
      rw [if_neg hk, hne]
      exact ih h

theorem Row.mem_of_get (h : r.get c = some v) : (c, v) ∈ r.columns := by
  unfold Row.get at h
  generalize r.columns = l at h
  induction l with
  | nil => cases h
  | cons x l ih =>
    obtain ⟨k, w⟩ := x
    rw [List.lookup_cons] at h
    split at h
    · cases h
      rename_i hk
      rw [eq_of_beq hk]
      exact List.mem_cons_self
    · exact List.mem_cons_of_mem _ (ih h)

/-- A replacement counts for what it replaces. -/
theorem Row.sum_set (f : Value → Nat) (h : r.get c = some old) :
    ((r.set c v).columns.map fun x => f x.2).sum + f old = (r.columns.map fun x => f x.2).sum + f v := by
  have hmem := Row.mem_of_get h
  have hnd := r.nodup
  show ((r.columns.map fun x => if x.1 = c then (c, v) else x).map fun x => f x.2).sum + f old = _
  generalize r.columns = l at hmem hnd ⊢
  induction l with
  | nil => cases hmem
  | cons x l ih =>
    obtain ⟨hx, hl⟩ := List.nodup_cons.1 (List.map_cons .. ▸ hnd)
    simp only [List.map_cons, List.sum_cons]
    obtain rfl | hmem := List.mem_cons.1 hmem
    · have hsame : (l.map fun x => if x.1 = c then (c, v) else x) = l := by
        refine (List.map_congr_left fun y hy => if_neg fun he : y.1 = c => ?_).trans (List.map_id l)
        have hmem : y.1 ∈ l.map Prod.fst := List.mem_map_of_mem hy
        exact hx (he ▸ hmem)
      rw [hsame, if_pos rfl]
      simp only
      omega
    · have hne : x.1 ≠ c := fun he => hx (he ▸ List.mem_map_of_mem hmem)
      have := ih hmem hl
      rw [if_neg hne]
      omega

theorem Row.set_columns_of_none (h : r.get c = none) : (r.set c v).columns = r.columns := by
  show (r.columns.map fun x => if x.1 = c then (c, v) else x) = r.columns
  refine (List.map_congr_left fun x hx => if_neg fun he => ?_).trans (List.map_id _)
  exact absurd (List.lookup_eq_none_iff.1 h x hx) (by simp [he])

/-- A replacement by what counts for no more. -/
theorem Row.sum_set_le (f : Value → Nat) (h : ∀ old, r.get c = some old → f v ≤ f old) :
    ((r.set c v).columns.map fun x => f x.2).sum ≤ (r.columns.map fun x => f x.2).sum := by
  cases hget : r.get c with
  | none => rw [Row.set_columns_of_none hget]
  | some old =>
    have := Row.sum_set (v := v) f hget
    have := h old hget
    omega

theorem Row.le_sum (f : Value → Nat) (h : r.get c = some v) : f v ≤ (r.columns.map fun x => f x.2).sum :=
  List.single_le_sum (fun _ _ => Nat.zero_le _) _ (List.mem_map_of_mem (Row.mem_of_get h))

theorem headerBytes_int (n : Int) : (Value.int n).headerBytes e = 1 := by
  have h : ((Value.int n).serial e).1 ≤ 9 := by
    simp only [Value.serial]
    split_ifs <;> decide
  have h1 := (sqliteVarintBytes_le_iff (n := ((Value.int n).serial e).1) (Nat.le_refl 1) (by decide)).2 (by omega)
  exact Nat.le_antisymm h1 (sqliteVarintBytes_pos _)

theorem headerBytes_empty : (Value.blob 0).headerBytes e = 1 := (by decide : sqliteVarintBytes 12 = 1)

theorem bodyBytes_int {n : Int} (h : 0 ≤ n) : (Value.int n).bodyBytes e = counterBytes n := by
  simp only [Value.bodyBytes, Value.serial, counterBytes]
  split_ifs <;> first | rfl | omega

/-- An operation time: 20 ASCII characters. -/
def IsTime (now : List Char) : Prop := now.length = 20 ∧ ∀ c ∈ now, c.toNat < 128

-- Named, so that no search through all characters is taken for it.
instance (now : List Char) : Decidable (IsTime now) :=
  @instDecidableAnd _ _ _ (List.decidableBAll (fun c : Char => c.toNat < 128) now)

theorem textBytes_ascii (h : ∀ c ∈ now, c.toNat < 128) : textBytes e now = e.unit * now.length := by
  have hbytes : ∀ c : Char, c.toNat < 128 → e.bytes c = e.unit := by
    intro c hc
    have hsize : c.utf8Size = 1 := Char.utf8Size_eq_one_iff.2 (UInt32.le_iff_toNat_le.2 (Nat.le_of_lt_succ hc))
    have hunits : (Utf16.units c).length = 1 := by
      unfold Utf16.units
      rw [if_pos (by omega)]
      rfl
    cases e with
    | utf8 => exact hsize
    | utf16le | utf16be => simp only [Encoding.bytes, Encoding.unit, hunits]
  unfold textBytes
  rw [List.map_congr_left fun c hc => hbytes c (h c hc), List.map_const', List.sum_replicate_nat, Nat.mul_comm]

theorem headerBytes_time (h : IsTime now) : (Value.text now).headerBytes e = 1 := by
  have hlen : textBytes e now ≤ 40 := by
    rw [textBytes_ascii h.2, h.1]
    cases e <;> decide
  have h1 := (sqliteVarintBytes_le_iff (n := 13 + 2 * textBytes e now) (Nat.le_refl 1) (by decide)).2 (by omega)
  exact Nat.le_antisymm h1 (sqliteVarintBytes_pos _)

/-- The least padding takes what the replaced columns leave of the old padding, at most. -/
theorem sizeWith_le {pad minimum : Nat} (hpad : r'.get "cleanup_padding" = some (.blob pad)) (hmin : minimum ≤ pad)
    (hh : (r'.sqliteRecordParts e).1 ≤ (r.sqliteRecordParts e).1)
    (hb : (r'.sqliteRecordParts e).2 + minimum ≤ (r.sqliteRecordParts e).2 + pad) :
    r'.sizeWith e minimum ≤ r.sqliteRecordBytes e := by
  have hset : (r'.set "cleanup_padding" (.blob 0)).get "cleanup_padding" = some (.blob 0) := Row.get_set_self hpad
  have hpos := Row.le_sum (Value.headerBytes e) hset
  have hheader := Row.sum_set (v := .blob 0) (Value.headerBytes e) hpad
  have hbody := Row.sum_set (v := .blob 0) (Value.bodyBytes e) hpad
  have hzero : (Value.blob 0).headerBytes e = 1 := headerBytes_empty
  have hv : sqliteVarintBytes (12 + 2 * minimum) ≤ sqliteVarintBytes (12 + 2 * pad) := sqliteVarintBytes_mono (by omega)
  have hold : (Value.blob pad).headerBytes e = sqliteVarintBytes (12 + 2 * pad) := rfl
  have hold' : (Value.blob pad).bodyBytes e = pad := rfl
  have hzero' : (Value.blob 0).bodyBytes e = 0 := rfl
  unfold Row.sizeWith Row.sqliteRecordBytes paddedSize
  simp only [Row.sqliteRecordParts] at *
  exact sqliteRecordSize_mono (by omega) (by omega)

theorem Row.int_ok {n : Int} (h : r.int c = .ok n) : r.get c = some (.int n) := by
  unfold Row.int at h
  split at h
  · rename_i hget
    cases h
    exact hget
  · cases h

theorem Row.textLength_ok {n : Nat} (h : r.textLength e c = .ok n) : ∃ s, r.get c = some (.text s) ∧ n = textBytes e s := by
  unfold Row.textLength at h
  split at h
  · rename_i s hget
    cases h
    exact ⟨s, hget, rfl⟩
  · cases h

theorem Row.blobLength_ok {n : Nat} (h : r.blobLength c = .ok n) : r.get c = some (.blob n) := by
  unfold Row.blobLength at h
  split at h
  · rename_i hget
    cases h
    exact hget
  · cases h

/-- A sequence advance takes the growth from the padding. -/
theorem advance_shrinks {changes : List (String × Value)} {minimum : Nat} (hnow : IsTime now)
    (h : advancePlan e r now = .ok (changes, minimum)) :
    ((r.apply changes).get "cleanup_padding").isSome ∧ (r.apply changes).sizeWith e minimum ≤ r.sqliteRecordBytes e := by
  unfold advancePlan at h
  simp only [Check.bind_ok] at h
  obtain ⟨seq, hseq, previous, hprev, pad, hpad, h⟩ := h
  split at h
  · cases h
  rename_i hrange
  split at h
  · cases h
  rename_i hroom
  cases h
  have hseq := Row.int_ok hseq
  obtain ⟨s, htext, rfl⟩ := Row.textLength_ok hprev
  have hpad := Row.blobLength_ok hpad
  have htext' : (r.set "change_seq" (.int (seq + 1))).get "updated_at" = some (.text s) :=
    (Row.get_set_ne (by decide)).trans htext
  have hpad' : (r.apply [("change_seq", .int (seq + 1)), ("updated_at", .text now)]).get "cleanup_padding" =
      some (.blob pad) :=
    (Row.get_set_ne (by decide : "cleanup_padding" ≠ "updated_at")).trans
      ((Row.get_set_ne (by decide : "cleanup_padding" ≠ "change_seq")).trans hpad)
  have h1 := Row.sum_set (v := .int (seq + 1)) (Value.headerBytes e) hseq
  have h2 := Row.sum_set (v := .text now) (Value.headerBytes e) htext'
  have b1 := Row.sum_set (v := .int (seq + 1)) (Value.bodyBytes e) hseq
  have b2 := Row.sum_set (v := .text now) (Value.bodyBytes e) htext'
  rw [headerBytes_int, headerBytes_int] at h1
  rw [headerBytes_time hnow] at h2
  rw [bodyBytes_int (by omega), bodyBytes_int (by omega)] at b1
  have hpos : 1 ≤ (Value.text s).headerBytes e := sqliteVarintBytes_pos _
  have hnew : (Value.text now).bodyBytes e = textBytes e now := rfl
  have hold : (Value.text s).bodyBytes e = textBytes e s := rfl
  refine ⟨hpad' ▸ rfl, sizeWith_le hpad' (Nat.sub_le _ _) ?_ ?_⟩
  · simp only [Row.sqliteRecordParts, Row.apply, List.foldl]
    omega
  · simp only [Row.sqliteRecordParts, Row.apply, List.foldl]
    omega

/-- A tombstone drops the ciphertext and takes the growth from the padding. -/
theorem tombstone_shrinks {changes : List (String × Value)} {minimum : Nat} {seq : Int} (hnow : IsTime now) (hseq : 0 ≤ seq)
    (hlive : r.get "deleted_at" = some (.text [])) (h : tombstonePlan e r now seq = .ok (changes, minimum)) :
    ((r.apply changes).get "cleanup_padding").isSome ∧ (r.apply changes).sizeWith e minimum ≤ r.sqliteRecordBytes e := by
  unfold tombstonePlan at h
  simp only [Check.bind_ok] at h
  obtain ⟨old, hget, pad, hpad, h⟩ := h
  split at h
  · cases h
  rename_i hold
  split at h
  · cases h
  rename_i hroom
  cases h
  have hget := Row.int_ok hget
  have hpad := Row.blobLength_ok hpad
  have hget' : ((r.set "deleted_at" (.text now)).set "body_ciphertext" (.blob 0)).get "change_seq" = some (.int old) :=
    (Row.get_set_ne (by decide)).trans ((Row.get_set_ne (by decide)).trans hget)
  have hpad' : (((r.set "deleted_at" (.text now)).set "body_ciphertext" (.blob 0)).set "change_seq" (.int seq)).get
      "cleanup_padding" = some (.blob pad) :=
    (Row.get_set_ne (by decide)).trans ((Row.get_set_ne (by decide)).trans ((Row.get_set_ne (by decide)).trans hpad))
  have h1 := Row.sum_set (v := .text now) (Value.headerBytes e) hlive
  have b1 := Row.sum_set (v := .text now) (Value.bodyBytes e) hlive
  have h2 := Row.sum_set_le (r := r.set "deleted_at" (.text now)) (c := "body_ciphertext") (Value.headerBytes e)
    fun old _ => headerBytes_empty.le.trans (sqliteVarintBytes_pos (old.serial e).1)
  have b2 := Row.sum_set_le (r := r.set "deleted_at" (.text now)) (c := "body_ciphertext") (v := .blob 0)
    (Value.bodyBytes e) fun old _ => Nat.zero_le _
  have h3 := Row.sum_set (v := .int seq) (Value.headerBytes e) hget'
  have b3 := Row.sum_set (v := .int seq) (Value.bodyBytes e) hget'
  have hempty : (Value.text []).headerBytes e = 1 := (by decide : sqliteVarintBytes 13 = 1)
  have hempty' : (Value.text []).bodyBytes e = 0 := rfl
  have hnew : (Value.text now).bodyBytes e = textBytes e now := rfl
  rw [headerBytes_time hnow, hempty] at h1
  rw [headerBytes_int, headerBytes_int] at h3
  rw [bodyBytes_int hseq, bodyBytes_int (by omega)] at b3
  refine ⟨Option.isSome_of_eq_some hpad', sizeWith_le hpad' (Nat.zero_le _) ?_ ?_⟩
  · simp only [Row.sqliteRecordParts, Row.apply, List.foldl]
    omega
  · simp only [Row.sqliteRecordParts, Row.apply, List.foldl]
    omega

/-- A revocation takes the time from the padding. -/
theorem revoke_shrinks {changes : List (String × Value)} {minimum : Nat} (hnow : IsTime now)
    (hlive : r.get "revoked_at" = some (.text [])) (h : revokePlan e r now = .ok (changes, minimum)) :
    ((r.apply changes).get "cleanup_padding").isSome ∧ (r.apply changes).sizeWith e minimum ≤ r.sqliteRecordBytes e := by
  unfold revokePlan at h
  simp only [Check.bind_ok] at h
  obtain ⟨pad, hpad, h⟩ := h
  split at h
  · cases h
  rename_i hroom
  cases h
  have hpad := Row.blobLength_ok hpad
  have hpad' : (r.apply [("revoked_at", .text now)]).get "cleanup_padding" = some (.blob pad) :=
    (Row.get_set_ne (by decide : "cleanup_padding" ≠ "revoked_at")).trans hpad
  have h1 := Row.sum_set (v := .text now) (Value.headerBytes e) hlive
  have b1 := Row.sum_set (v := .text now) (Value.bodyBytes e) hlive
  have hempty : (Value.text []).headerBytes e = 1 := (by decide : sqliteVarintBytes 13 = 1)
  have hempty' : (Value.text []).bodyBytes e = 0 := rfl
  have hnew : (Value.text now).bodyBytes e = textBytes e now := rfl
  rw [headerBytes_time hnow, hempty] at h1
  refine ⟨hpad' ▸ rfl, sizeWith_le hpad' (Nat.sub_le _ _) ?_ ?_⟩
  · simp only [Row.sqliteRecordParts, Row.apply, List.foldl]
    omega
  · simp only [Row.sqliteRecordParts, Row.apply, List.foldl]
    omega

end Sizes

/-! ## Layouts -/

section Layouts

variable {page : Page} {r : Row} {changes : List (String × Value)} {minimum : Nat} {table : String}

theorem Row.sizeWith_steps (e : Encoding) (r : Row) : Steps (r.sizeWith e) := fun pad => paddedSize_step _ _ pad

/-- `cleanupRowPaddingTx` finds the padding of a row whose least padding is small enough but where the paddings step over. -/
theorem cleanupRowPaddingTx_cases (hU : 480 ≤ page.usable) (htable : table ∈ ["comments", "containers", "sealed_share_links"])
    (hpad : ((r.apply changes).get "cleanup_padding").isSome)
    (hmin : (r.apply changes).sizeWith page.encoding minimum ≤ r.sqliteRecordBytes page.encoding) :
    (∃ pad, cleanupRowPaddingTx page table (some r) changes minimum = .ok pad ∧ minimum ≤ pad ∧
        pad ≤ minimum + page.usable + 18 ∧
        Fits page.usable (r.sqliteRecordBytes page.encoding) ((r.apply changes).sizeWith page.encoding pad)) ∧
      ¬SteppedOver page.usable (r.sqliteRecordBytes page.encoding) ((r.apply changes).sizeWith page.encoding) minimum ∨
    cleanupRowPaddingTx page table (some r) changes minimum = .error (.noLayout table) ∧
      SteppedOver page.usable (r.sqliteRecordBytes page.encoding) ((r.apply changes).sizeWith page.encoding) minimum := by
  have hlen : ¬page.length < 100 := by
    unfold Page.usable at hU
    omega
  have hsteps := Row.sizeWith_steps page.encoding (r.apply changes)
  have hiff := exists_fits_iff hU hsteps hmin
  unfold cleanupRowPaddingTx
  rw [if_neg (not_not.2 htable), if_neg hlen]
  simp only [Option.isNone_eq_false_iff.2 hpad, Bool.false_eq_true, if_false]
  cases hsearch : searchPadding page.usable (r.sqliteRecordBytes page.encoding) ((r.apply changes).sizeWith page.encoding)
      (page.usable + 19) minimum with
  | some pad =>
    obtain ⟨h1, h2, hfits⟩ := searchPadding_some hsearch
    have hbound : pad ≤ minimum + page.usable + 18 := by omega
    exact .inl ⟨⟨pad, rfl, h1, hbound, hfits⟩, hiff.1 ⟨pad, h1, hbound, hfits⟩⟩
  | none =>
    refine .inr ⟨rfl, ?_⟩
    by_contra hnot
    obtain ⟨pad, h1, h2, hfits⟩ := hiff.2 hnot
    obtain ⟨q, hq⟩ := searchPadding_isSome (n := page.usable + 19) hsteps h1 (by omega) hfits
    rw [hsearch] at hq
    cases hq

theorem padded_iff {α : Type} (f : Nat → α) (hU : 480 ≤ page.usable)
    (htable : table ∈ ["comments", "containers", "sealed_share_links"])
    (hpad : ((r.apply changes).get "cleanup_padding").isSome)
    (hmin : (r.apply changes).sizeWith page.encoding minimum ≤ r.sqliteRecordBytes page.encoding) :
    (∃ x, (cleanupRowPaddingTx page table (some r) changes minimum >>= fun pad => .ok (f pad)) = .ok x) ↔
      ¬SteppedOver page.usable (r.sqliteRecordBytes page.encoding) ((r.apply changes).sizeWith page.encoding) minimum := by
  obtain ⟨⟨pad, hok, -⟩, hnot⟩ | ⟨herr, hover⟩ := cleanupRowPaddingTx_cases hU htable hpad hmin
  · rw [hok]
    exact iff_of_true ⟨_, rfl⟩ hnot
  · rw [herr]
    exact iff_of_false (fun ⟨_, h⟩ => by cases h) (not_not.2 hover)

theorem Row.withEmpty_ok {c : String} (h : r.get c = some (.text [])) : Row.withEmpty (some r) c = .ok r := by
  simp [Row.withEmpty, Option.filter, h]

theorem advance_iff {now : List Char} (hU : 480 ≤ page.usable) (hnow : IsTime now)
    (hlive : r.get "deleted_at" = some (.text [])) (hplan : advancePlan page.encoding r now = .ok (changes, minimum)) :
    (∃ r', advanceCleanupSeqTx page (some r) now = .ok r') ↔
      ¬SteppedOver page.usable (r.sqliteRecordBytes page.encoding) ((r.apply changes).sizeWith page.encoding) minimum := by
  obtain ⟨hpad, hmin⟩ := advance_shrinks hnow hplan
  unfold advanceCleanupSeqTx
  simp only [Row.withEmpty_ok hlive, hplan, Check.ok_bind]
  exact padded_iff _ hU (by decide) hpad hmin

theorem tombstone_iff {now : List Char} {seq : Int} (hU : 480 ≤ page.usable) (hnow : IsTime now) (hseq : 0 ≤ seq)
    (hlive : r.get "deleted_at" = some (.text [])) (hplan : tombstonePlan page.encoding r now seq = .ok (changes, minimum)) :
    (∃ r', tombstoneCommentTx page (some r) now seq = .ok r') ↔
      ¬SteppedOver page.usable (r.sqliteRecordBytes page.encoding) ((r.apply changes).sizeWith page.encoding) minimum := by
  obtain ⟨hpad, hmin⟩ := tombstone_shrinks hnow hseq hlive hplan
  unfold tombstoneCommentTx
  simp only [Row.withEmpty_ok hlive, hplan, Check.ok_bind]
  exact padded_iff _ hU (by decide) hpad hmin

theorem revoke_iff {owner now : List Char} (hU : 480 ≤ page.usable) (hnow : IsTime now)
    (howner : r.get "owner_user_id" = some (.text owner)) (hlive : r.get "revoked_at" = some (.text []))
    (hplan : revokePlan page.encoding r now = .ok (changes, minimum)) :
    (∃ r', revokeSealedLinkTx page (some r) owner now = .ok r') ↔
      ¬SteppedOver page.usable (r.sqliteRecordBytes page.encoding) ((r.apply changes).sizeWith page.encoding) minimum := by
  obtain ⟨hpad, hmin⟩ := revoke_shrinks hnow hlive hplan
  have howned : (some r).filter (fun r => r.get "owner_user_id" = some (.text owner)) = some r := by
    rw [Option.filter_some, if_pos (decide_eq_true howner)]
  unfold revokeSealedLinkTx
  simp only [howned, Row.withEmpty_ok hlive, hplan, Check.ok_bind]
  exact padded_iff _ hU (by decide) hpad hmin

/-- On a usable size of at least 480, the search finds a padding within its bound, such that the record, its cell and its
overflow pages do not grow, if and only if the paddings do not step over. A sequence advance, a comment tombstone and a link
revocation whose reserve covers the growth go through if and only if theirs do not. -/
theorem cleanup_layout_iff (page : Page) (hU : 480 ≤ page.usable) :
    let e := page.encoding
    (∀ (table : String) (r : Row) (changes : List (String × Value)) (minimum : Nat),
      table ∈ ["comments", "containers", "sealed_share_links"] →
      ((r.apply changes).get "cleanup_padding").isSome →
      (r.apply changes).sizeWith e minimum ≤ r.sqliteRecordBytes e →
      ((∃ pad, cleanupRowPaddingTx page table (some r) changes minimum = .ok pad ∧ minimum ≤ pad ∧
          pad ≤ minimum + page.usable + 18 ∧ Fits page.usable (r.sqliteRecordBytes e) ((r.apply changes).sizeWith e pad)) ↔
        ¬SteppedOver page.usable (r.sqliteRecordBytes e) ((r.apply changes).sizeWith e) minimum)) ∧
    (∀ (r : Row) (now : List Char) (changes : List (String × Value)) (minimum : Nat),
      IsTime now → r.get "deleted_at" = some (.text []) → advancePlan e r now = .ok (changes, minimum) →
      ((∃ r', advanceCleanupSeqTx page (some r) now = .ok r') ↔
        ¬SteppedOver page.usable (r.sqliteRecordBytes e) ((r.apply changes).sizeWith e) minimum)) ∧
    (∀ (r : Row) (now : List Char) (seq : Int) (changes : List (String × Value)) (minimum : Nat),
      IsTime now → 0 ≤ seq → r.get "deleted_at" = some (.text []) →
      tombstonePlan e r now seq = .ok (changes, minimum) →
      ((∃ r', tombstoneCommentTx page (some r) now seq = .ok r') ↔
        ¬SteppedOver page.usable (r.sqliteRecordBytes e) ((r.apply changes).sizeWith e) minimum)) ∧
    ∀ (r : Row) (owner now : List Char) (changes : List (String × Value)) (minimum : Nat),
      IsTime now → r.get "owner_user_id" = some (.text owner) → r.get "revoked_at" = some (.text []) →
      revokePlan e r now = .ok (changes, minimum) →
      ((∃ r', revokeSealedLinkTx page (some r) owner now = .ok r') ↔
        ¬SteppedOver page.usable (r.sqliteRecordBytes e) ((r.apply changes).sizeWith e) minimum) := by
  refine ⟨fun table r changes minimum htable hpad hmin => ?_,
    fun r now changes minimum hnow hlive hplan => advance_iff hU hnow hlive hplan,
    fun r now seq changes minimum hnow hseq hlive hplan => tombstone_iff hU hnow hseq hlive hplan,
    fun r owner now changes minimum hnow howner hlive hplan => revoke_iff hU hnow howner hlive hplan⟩
  obtain ⟨hok, hnot⟩ | ⟨herr, hover⟩ := cleanupRowPaddingTx_cases hU htable hpad hmin
  · exact iff_of_true hok hnot
  · refine iff_of_false ?_ (not_not.2 hover)
    rintro ⟨pad, hpad, -⟩
    rw [herr] at hpad
    cases hpad

/-- A link of 30-byte IDs on a page of 4096 bytes. -/
def linkRow : Row where
  columns := [("id", .text (List.replicate 30 'l')), ("token_hash", .text (List.replicate 64 'h')), ("ciphertext", .blob 500),
    ("revoked_at", .text []), ("owner_user_id", .text ['u']), ("cleanup_padding", .blob 40)]
  nodup := by decide

/-- Its revocation. -/
theorem cleanup_layout_link :
    ∃ r', revokeSealedLinkTx ⟨4096, 0, .utf8⟩ (some linkRow) ['u'] (List.replicate 20 '0') = .ok r' := by
  have hplan : revokePlan .utf8 linkRow (List.replicate 20 '0') =
      .ok ([("revoked_at", .text (List.replicate 20 '0'))], 20) := by decide +kernel
  refine ((cleanup_layout_iff ⟨4096, 0, .utf8⟩ (by decide)).2.2.2 _ _ _ _ _ (by decide +kernel) (by decide +kernel)
    (by decide +kernel) hplan).2 ?_
  rintro ⟨n, pad, hover, -⟩
  have hzero : (sqliteCellLayout (linkRow.sqliteRecordBytes .utf8) 4096).2 = 0 := by decide +kernel
  exact absurd (hzero.symm.trans hover) (Nat.succ_ne_zero n).symm

/-- A comment of 13 bytes on a page of 512 bytes, with an ID of 277: the record of 478 bytes is the least that spills. -/
def spiltComment : Row where
  columns := [("id", .text (List.replicate 277 'c')), ("container_id", .text (List.replicate 30 'c')),
    ("object_id", .text (List.replicate 30 'o')), ("author_user_id", .text (List.replicate 30 'u')),
    ("body_ciphertext", .blob 13), ("key_generation", .int 1), ("change_seq", .int 2),
    ("created_at", .text (List.replicate 20 '0')), ("deleted_at", .text []), ("cleanup_padding", .blob 64)]
  nodup := by decide

/-- Its tombstone has 420 bytes with no padding, 477 with 57 bytes, and 479 with 58. -/
theorem tombstone_noLayout :
    ¬∀ (page : Page) (r : Row) (now : List Char) (seq : Int) (changes : List (String × Value)) (minimum : Nat),
      480 ≤ page.usable → IsTime now → 0 ≤ seq → r.get "deleted_at" = some (.text []) →
      tombstonePlan page.encoding r now seq = .ok (changes, minimum) → ∃ r', tombstoneCommentTx page (some r) now seq = .ok r' := by
  intro h
  have hplan : tombstonePlan .utf8 spiltComment (List.replicate 20 '0') 3 =
      .ok ([("deleted_at", .text (List.replicate 20 '0')), ("body_ciphertext", .blob 0), ("change_seq", .int 3)], 0) := by
    decide +kernel
  let page : Page := ⟨512, 0, .utf8⟩
  have hU : 480 ≤ page.usable := by decide +kernel
  have hlive : spiltComment.get "deleted_at" = some (.text []) := by decide +kernel
  have hgoes := h page spiltComment (List.replicate 20 '0') 3 _ _ hU (by decide +kernel) (by decide +kernel) hlive hplan
  refine (tombstone_iff hU (by decide +kernel) (by decide +kernel) hlive hplan).1 hgoes ?_
  exact ⟨0, 57, by decide +kernel, Nat.zero_le _, by decide +kernel, by decide +kernel, by decide +kernel, by decide +kernel⟩

end Layouts

end KyNotes.Cleanup
