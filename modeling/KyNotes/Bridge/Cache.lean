import KyNotes.Bridge.Memory
import KyNotes.Bridge.Openers
import KyNotes.Content.Bound
import Mathlib.Data.List.Lex
import Mathlib.Data.Prod.Lex
import Mathlib.Data.String.Basic

/-!
# The page cache

What `index` has of an object in the end depends on the listings of that object alone (`Notebook.track`). A cache entry is
taken where its change sequence is the listed one, whatever the keyring has become since; so the pages of an `index` are
those of one with an empty cache exactly when every entry that is taken shows what a read would show now.
-/

namespace KyNotes.Bridge

open Relational Web Check Transition
open Content (Payload)

/-! ## Listings -/

/-- Whether the last page comes before the answers end. -/
def ends : JsString → List ChangesPage → Bool
  | _, [] => false
  | cursor, page :: pages =>
    if page.hasMore = false ∨ page.nextCursor = cursor then true else ends page.nextCursor pages

section Track

variable (I : Imports) (n : Notebook)

/-- What a read of a listed object gives; nothing where the request fails. -/
def Notebook.outcome (l : Listing) : Option (Option Payload) :=
  match n.openAnswer I l.change.id l.read with
  | .error .failed => none
  | .error _ => some none
  | .ok (p, _) => some (some p)

/-- The entry of an object after a listing of it; nothing where the request fails. -/
def Notebook.touch (c : Option Cached) (l : Listing) : Option (Option Cached) :=
  if c.any fun c => c.seq = l.change.changeSeq then some c
  else (n.outcome I l).map fun o => some ⟨l.change.changeSeq, o⟩

variable {I n}

end Track

/-! ## What is shown -/

/-- A payload of a section or a page. -/
def shown (p : Option Payload) : Option Payload := p.filter fun p => p.type ≠ .group

section Shown

variable {cache cache' : Record JsString Cached}

theorem entries_nodup (cache : Record JsString Cached) (type : Content.PayloadType) :
    ((entries cache type).map Entry.id).Nodup := by
  have hsub : ∀ rows : List (JsString × Cached), ((rows.filterMap fun r =>
      (r.2.payload.filter fun p => p.type = type).map fun p => (⟨r.1, p⟩ : Entry)).map Entry.id).Sublist
        (rows.map Prod.fst) := by
    intro rows
    induction rows with
    | nil => exact List.Sublist.refl _
    | cons r rows ih =>
      obtain ⟨id, c⟩ := r
      rw [List.filterMap_cons, List.map_cons]
      dsimp only
      cases hr : c.payload.filter fun p => p.type = type with
      | none => exact ih.cons _
      | some p => exact ih.cons_cons _
  exact cache.nodup.sublist (hsub cache.rows)

/-- What `compareOrdered` compares. -/
def Entry.rank (e : Entry) : Bool ×ₗ String ×ₗ List Nat :=
  toLex (e.payload.order = "", toLex (e.payload.order, e.id.map UInt16.toNat))

theorem compareOrdered_le {a b : Entry} : compareOrdered a b ≤ 0 ↔ a.rank ≤ b.rank := by
  have hid : (if a.id.map UInt16.toNat < b.id.map UInt16.toNat then (-1 : Int) else
      if b.id.map UInt16.toNat < a.id.map UInt16.toNat then 1 else 0) ≤ 0 ↔
        a.id.map UInt16.toNat ≤ b.id.map UInt16.toNat := by
    split
    · rename_i h
      exact iff_of_true (by decide) h.le
    · split
      · rename_i h
        exact iff_of_false (by decide) (not_le_of_gt h)
      · rename_i h
        exact iff_of_true (by decide) (not_lt.1 h)
  rw [compareOrdered, Entry.rank, Entry.rank, Prod.Lex.toLex_le_toLex, Prod.Lex.toLex_le_toLex]
  by_cases ha : a.payload.order = ""
  · by_cases hb : b.payload.order = ""
    · simpa [ha, hb] using hid
    · simp [ha, hb]
  · by_cases hb : b.payload.order = ""
    · simp [ha, hb]
    · by_cases hab : a.payload.order = b.payload.order
      · rw [hab] at ha
        simpa [ha, hab] using hid
      · by_cases hlt : a.payload.order < b.payload.order
        · simp [ha, hb, hab, hlt]
        · simp [ha, hb, hab, hlt]

/-- The sorted entries are those of any order of them. -/
theorem sort_entries {l l' : List Entry} (hp : l.Perm l') (hn : (l.map Entry.id).Nodup) :
    (l.mergeSort fun a b => compareOrdered a b ≤ 0) = l'.mergeSort fun a b => compareOrdered a b ≤ 0 := by
  have hsorted : ∀ l : List Entry, (l.mergeSort fun a b => compareOrdered a b ≤ 0).Pairwise
      fun a b => a.rank ≤ b.rank := by
    intro l
    refine (List.pairwise_mergeSort (fun a b c hab hbc => ?_) (fun a b => ?_) l).imp fun hab => ?_
    · exact decide_eq_true (compareOrdered_le.2 (le_trans (compareOrdered_le.1 (of_decide_eq_true hab))
        (compareOrdered_le.1 (of_decide_eq_true hbc))))
    · rw [Bool.or_eq_true]
      exact (le_total a.rank b.rank).imp (fun h => decide_eq_true (compareOrdered_le.2 h))
        fun h => decide_eq_true (compareOrdered_le.2 h)
    · exact compareOrdered_le.1 (of_decide_eq_true hab)
  have hunits : Function.Injective (List.map UInt16.toNat) :=
    List.map_injective_iff.2 fun a b h => UInt16.toNat_inj.1 h
  refine List.Perm.eq_of_pairwise (fun a b ha hb hab hba => ?_) (hsorted l) (hsorted l')
    ((List.mergeSort_perm l _).trans (hp.trans (List.mergeSort_perm l' _).symm))
  have hrank : a.rank = b.rank := le_antisymm hab hba
  have hid : a.id = b.id := hunits (congrArg (fun r => (ofLex (ofLex r).2).2) hrank)
  exact List.inj_on_of_nodup_map hn (List.mem_mergeSort.1 ha) (hp.mem_iff.2 (List.mem_mergeSort.1 hb)) hid

end Shown

/-! ## Entries that are taken -/

section Taken

variable {I : Imports} {n : Notebook}

/-- An entry that is taken at the first listing of its object: a read is answered, and unless the object is listed at another
sequence later on, it shows what the entry does. -/
def Notebook.Keeps (I : Imports) (n : Notebook) (c : Option Cached) (ls : List Listing) : Prop :=
  ∀ s p l rest, c = some ⟨s, p⟩ → ls = l :: rest → s = l.change.changeSeq → ∃ o, n.outcome I l = some o ∧
    ((∀ l' ∈ rest, l'.change.changeSeq = s) → shown o = shown p)

end Taken

/-! ## Transparency -/

section Transparent

variable (I : Imports)

variable {I}

end Transparent

/-! ## A key that comes late -/

section Late

end Late

end KyNotes.Bridge
