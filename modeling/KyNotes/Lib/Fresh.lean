import Mathlib.Data.Finset.Card
import Mathlib.Data.List.Basic

/-!
# A name that is not taken

Of finitely many taken names each injective family of candidates meets only finitely many, so that among enough candidates
there is one with nothing taken in any of some families (`exists_fresh`).
-/

namespace Fresh

variable {κ : Type*} [DecidableEq κ]

/-- An injective family meets the taken names no more often than there are names. -/
theorem card_meets_le (taken : List κ) {f : ℕ → κ} (hf : f.Injective) (s : Finset ℕ) :
    (s.filter fun n => f n ∈ taken).card ≤ taken.length := by
  calc (s.filter fun n => f n ∈ taken).card ≤ taken.toFinset.card := by
        refine Finset.card_le_card_of_injOn f (fun n hn => ?_) hf.injOn
        exact List.mem_toFinset.mpr (Finset.mem_filter.mp hn).2
    _ ≤ taken.length := List.toFinset_card_le taken

/-- Among more candidates than the families can meet one is fresh in all of them. -/
theorem exists_fresh (taken : List κ) : ∀ (families : List (ℕ → κ)) (s : Finset ℕ), (∀ f ∈ families, f.Injective) →
    families.length * taken.length < s.card → ∃ n ∈ s, ∀ f ∈ families, f n ∉ taken
  | [], s, _, hs => by
    obtain ⟨n, hn⟩ := Finset.card_pos.mp (Nat.zero_lt_of_lt hs)
    exact ⟨n, hn, nofun⟩
  | f :: families, s, hinj, hs => by
    have hmeets := card_meets_le taken (hinj f List.mem_cons_self) s
    have hsplit := Finset.card_filter_add_card_filter_not (s := s) fun n => f n ∈ taken
    have hlen : (f :: families).length * taken.length = families.length * taken.length + taken.length := by
      rw [List.length_cons, Nat.succ_mul]
    have hcard : families.length * taken.length < (s.filter fun n => f n ∉ taken).card := by omega
    obtain ⟨n, hn, hfresh⟩ := exists_fresh taken families _ (fun g hg => hinj g (List.mem_cons_of_mem f hg)) hcard
    obtain ⟨hns, hnf⟩ := Finset.mem_filter.mp hn
    exact ⟨n, hns, List.forall_mem_cons.mpr ⟨hnf, hfresh⟩⟩

end Fresh
