import Mathlib.Data.List.Basic
import Mathlib.Data.List.Induction

/-!
# The words of a text

A word is a longest run without a separator; `words` lists them with their places. What is between two separators, or at an
end of the text, is read by itself (`scan_sep`, `texts_append`), and a word that is listed stands alone between separators
(`mem_scan`), so the others do not notice when it is cut out.
-/

namespace Words

variable {α : Type*} (sep : α → Bool)

/-- The open word with one more member. -/
def extend (pos : ℕ) (c : α) : Option (ℕ × List α) → ℕ × List α
  | none => (pos, [c])
  | some (start, w) => (start, w ++ [c])

/-- The words from place `pos` on, after the start of a word that is still open. -/
def scan : ℕ → List α → Option (ℕ × List α) → List (ℕ × List α)
  | _, [], current => current.toList
  | pos, c :: s, current =>
    if sep c then current.toList ++ scan (pos + 1) s none else scan (pos + 1) s (some (extend pos c current))

/-- The words of a text with their places. -/
def words (s : List α) : List (ℕ × List α) := scan sep 0 s none

/-- The words alone. -/
def texts (s : List α) : List (List α) := (words sep s).map Prod.snd

variable {sep}

/-- A separator ends what is before it. -/
theorem scan_sep {c : α} (hc : sep c = true) (b : List α) : ∀ (a : List α) (pos : ℕ) (current : Option (ℕ × List α)),
    scan sep pos (a ++ c :: b) current = scan sep pos a current ++ scan sep (pos + a.length + 1) b none
  | [], pos, current => by simp [scan, hc]
  | x :: a, pos, current => by
    have hlen : pos + (x :: a).length + 1 = pos + 1 + a.length + 1 := by rw [List.length_cons]; omega
    rw [List.cons_append, scan, scan, hlen]
    split
    · rw [scan_sep hc b a, List.append_assoc]
    · exact scan_sep hc b a _ _

/-- The words do not depend on where the text stands. -/
theorem texts_scan : ∀ (s : List α) (pos pos' : ℕ) (current current' : Option (ℕ × List α)),
    current.map Prod.snd = current'.map Prod.snd →
    (scan sep pos s current).map Prod.snd = (scan sep pos' s current').map Prod.snd
  | [], _, _, current, current', h => by
    cases current <;> cases current' <;> simp_all [scan]
  | c :: s, pos, pos', current, current', h => by
    rw [scan, scan]
    split
    · rw [List.map_append, List.map_append, texts_scan s (pos + 1) (pos' + 1) none none rfl]
      congr 1
      cases current <;> cases current' <;> simp_all
    · refine texts_scan s _ _ _ _ ?_
      cases current <;> cases current' <;> simp_all [extend]

/-- A word goes on to the next separator. -/
theorem scan_word {w : List α} (hw : ∀ c ∈ w, sep c = false) (b : List α) : ∀ (pos start : ℕ) (v : List α),
    scan sep pos (w ++ b) (some (start, v)) = scan sep (pos + w.length) b (some (start, v ++ w)) := by
  induction w with
  | nil => intro pos start v; simp
  | cons c w ih =>
    intro pos start v
    have hlen : pos + (c :: w).length = pos + 1 + w.length := by rw [List.length_cons]; omega
    rw [List.cons_append, scan, if_neg (by rw [hw c List.mem_cons_self]; exact Bool.false_ne_true), hlen,
      ih (fun d hd => hw d (List.mem_cons_of_mem c hd)), extend, List.append_assoc, List.singleton_append]

/-- A word that begins here. -/
theorem scan_begin {w : List α} (hne : w ≠ []) (hw : ∀ c ∈ w, sep c = false) (b : List α) (pos : ℕ) :
    scan sep pos (w ++ b) none = scan sep (pos + w.length) b (some (pos, w)) := by
  cases w with
  | nil => exact absurd rfl hne
  | cons c w =>
    have hlen : pos + (c :: w).length = pos + 1 + w.length := by rw [List.length_cons]; omega
    rw [List.cons_append, scan, if_neg (by rw [hw c List.mem_cons_self]; exact Bool.false_ne_true), hlen,
      scan_word (fun d hd => hw d (List.mem_cons_of_mem c hd))]
    rfl

/-- Nothing or a separator is in front. -/
def EndsWord (sep : α → Bool) (b : List α) : Prop := ∀ c ∈ b.head?, sep c = true

/-- A separator and what ends with one. -/
theorem endsWord_concat {c : α} (hc : sep c = true) (v : List α) {a : List α} (ha : EndsWord sep a.reverse) :
    EndsWord sep (v ++ c :: a).reverse := by
  intro d hd
  rw [List.head?_reverse, Option.mem_def] at hd
  cases a with
  | nil =>
    rw [List.getLast?_concat] at hd
    exact Option.some.inj hd ▸ hc
  | cons x a =>
    rw [List.getLast?_append_of_ne_nil _ (by simp), List.getLast?_cons_cons] at hd
    exact ha d (by rw [List.head?_reverse]; exact hd)

/-- A word that is listed stands alone, and the others are those of what is around it. -/
theorem mem_scan : ∀ {n pos start : ℕ} {s w : List α}, s.length ≤ n → (start, w) ∈ scan sep pos s none →
    ∃ a b, s = a ++ w ++ b ∧ start = pos + a.length ∧ w ≠ [] ∧ (∀ c ∈ w, sep c = false) ∧
      EndsWord sep a.reverse ∧ EndsWord sep b
  | n, pos, start, [], w, _, h => by cases h
  | n + 1, pos, start, c :: s, w, hn, h => by
    by_cases hc : sep c = true
    · rw [scan, if_pos hc] at h
      obtain ⟨a, b, rfl, rfl, hw⟩ := mem_scan (Nat.le_of_succ_le_succ hn) h
      refine ⟨c :: a, b, rfl, by rw [List.length_cons]; omega, hw.1, hw.2.1, ?_, hw.2.2.2⟩
      exact endsWord_concat hc [] hw.2.2.1
    · obtain ⟨v, b, hs, hv, hb⟩ : ∃ v b, c :: s = v ++ b ∧ (∀ d ∈ v, sep d = false) ∧ EndsWord sep b := by
        refine ⟨_, _, (List.takeWhile_append_dropWhile (p := fun d => !sep d)).symm, fun d hd => ?_, fun d hd => ?_⟩
        · simpa using List.all_eq_true.mp (List.all_takeWhile (p := fun d => !sep d)) d hd
        · have := List.head?_dropWhile_not (fun d => !sep d) (c :: s)
          rw [Option.mem_def.mp hd] at this
          simpa using this
      have hne : v ≠ [] := by
        rintro rfl
        exact hc (hb c (by rw [← List.nil_append b, ← hs]; rfl))
      have hvpos := List.length_pos_of_ne_nil hne
      rw [hs, scan_begin hne hv] at h
      have hlen : (v ++ b).length ≤ n + 1 := hs ▸ hn
      rw [List.length_append] at hlen
      cases b with
      | nil =>
        obtain ⟨rfl, rfl⟩ : start = pos ∧ w = v := by simpa [scan] using h
        exact ⟨[], [], by simpa using hs, rfl, hne, hv, nofun, nofun⟩
      | cons d b =>
        have hd := hb d rfl
        rw [scan, if_pos hd] at h
        rcases List.mem_append.mp h with h | h
        · obtain ⟨rfl, rfl⟩ : start = pos ∧ w = v := by simpa using h
          exact ⟨[], d :: b, by simpa using hs, rfl, hne, hv, nofun, hb⟩
        · rw [List.length_cons] at hlen
          obtain ⟨a, b', rfl, rfl, hw, hsep, ha, hb'⟩ := mem_scan (n := n) (by omega) h
          refine ⟨v ++ d :: a, b', by rw [hs]; simp, by simp; omega, hw, hsep, ?_, hb'⟩
          exact endsWord_concat hd v ha

/-! ## The words of the parts -/

/-- On both sides of a separator. -/
theorem texts_sep {c : α} (hc : sep c = true) (a b : List α) : texts sep (a ++ c :: b) = texts sep a ++ texts sep b := by
  unfold texts words
  rw [scan_sep hc, List.map_append, texts_scan b _ 0 none none rfl]

theorem texts_cons {c : α} (hc : sep c = true) (b : List α) : texts sep (c :: b) = texts sep b := texts_sep hc [] b

theorem texts_concat {c : α} (hc : sep c = true) (a : List α) : texts sep (a ++ [c]) = texts sep a := by
  rw [texts_sep hc]
  exact List.append_nil _

theorem texts_append_left {b : List α} (hb : EndsWord sep b) (a : List α) :
    texts sep (a ++ b) = texts sep a ++ texts sep b := by
  cases b with
  | nil => rw [List.append_nil]; exact (List.append_nil _).symm
  | cons c b => rw [texts_sep (hb c rfl), texts_cons (hb c rfl)]

theorem texts_append_right {a : List α} (ha : EndsWord sep a.reverse) (b : List α) :
    texts sep (a ++ b) = texts sep a ++ texts sep b := by
  induction a using List.reverseRecOn with
  | nil => rfl
  | append_singleton a c _ =>
    have hc : sep c = true := ha c (by rw [List.reverse_append]; rfl)
    rw [List.append_assoc, List.singleton_append, texts_sep hc, texts_concat hc]

theorem texts_word {w : List α} (hne : w ≠ []) (hw : ∀ c ∈ w, sep c = false) : texts sep w = [w] := by
  have h := scan_begin hne hw [] 0
  rw [List.append_nil] at h
  unfold texts words
  rw [h]
  rfl

/-- The words around a word. -/
theorem texts_around {a w b : List α} (ha : EndsWord sep a.reverse) (hne : w ≠ []) (hw : ∀ c ∈ w, sep c = false)
    (hb : EndsWord sep b) : texts sep (a ++ w ++ b) = texts sep a ++ w :: texts sep b := by
  rw [texts_append_left hb, texts_append_right ha, texts_word hne hw, List.append_assoc]
  rfl

end Words
