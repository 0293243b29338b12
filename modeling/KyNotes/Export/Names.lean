import KyNotes.Export.Zip
import KyNotes.Lib.Casing
import KyNotes.Lib.Fresh
import KyNotes.Web.TaskDates
import Mathlib.Data.List.DropRight

/-!
# The names of an export

`safeName`, `namer` and `join` of `web/src/exportNotebook.ts`. `normalize` is `String.normalize("NFC")`, of which nothing is
needed: what is unsafe is replaced after it.

* `safeName_segment`: a title becomes a path segment;
* `name_fresh`: the loop of `namer` ends, with keys that were not taken in the directory;
* `candidate_safe`: and its name is as safe as the title.
-/

namespace KyNotes.Export

open Casing (Tables toLowerCase)
open Web (text isSpace isDigit decimal)

/-! ## Segments -/

def MAX_NAME : ℕ := 100

/-- `UNSAFE`: control characters, what a file system reserves, and marks of the writing direction. -/
def UNSAFE (c : UInt16) : Bool :=
  c ≤ 0x1f || (0x7f ≤ c && c ≤ 0x9f) || (text "<>:\"/\\|?*").contains c || c == 0x200e || c == 0x200f ||
    (0x202a ≤ c && c ≤ 0x202e) || (0x2066 ≤ c && c ≤ 0x2069)

/-- A letter of ASCII in lower case; the `i` of a pattern has no other. -/
def asciiLower (c : UInt16) : UInt16 := if 65 ≤ c ∧ c ≤ 90 then c + 32 else c

/-- `(\.|$)`. -/
def endsStem (s : Text) : Bool := s.head?.all (· == 46)

def RESERVED (name : Text) : Bool :=
  let s := name.map asciiLower
  ([text "con", text "prn", text "aux", text "nul"].contains (s.take 3) && endsStem (s.drop 3)) ||
    ([text "com", text "lpt"].contains (s.take 3) && (s.drop 3).head?.any isDigit && endsStem (s.drop 4))

/-- `[\s.]`. -/
def isEdge (c : UInt16) : Bool := isSpace c || c == 46

/-- `trim` of `safeName`. -/
def trimEdges (value : Text) : Text := (value.dropWhile isEdge).rdropWhile isEdge

/-- `Array.from(value).slice(0, n).join("")`. -/
def takePoints : ℕ → Text → Text
  | 0, _ => []
  | _ + 1, [] => []
  | _ + 1, [u] => [u]
  | n + 1, u :: v :: s => if Utf16.isHigh u ∧ Utf16.isLow v then u :: v :: takePoints n s else u :: takePoints n (v :: s)

variable (normalize : Text → Text)

def safeName (name fallback : Text) : Text :=
  let cleaned := trimEdges (takePoints MAX_NAME (trimEdges ((normalize name).map fun c => if UNSAFE c then 95 else c)))
  if cleaned = [] then fallback else if RESERVED cleaned then 95 :: cleaned else cleaned

/-- `join`. -/
def join (segments : List Text) : Text := [47].intercalate (segments.filter (· ≠ []))

/-! ## Unique names -/

/-- The names that are taken, by directory. -/
abbrev Used := List (Text × Text)

def Used.taken (used : Used) (dir : Text) : List Text := (used.filter fun u => u.1 = dir).map Prod.snd

def candidate (name : Text) (n : ℕ) : Text := if n = 1 then name else name ++ 32 :: 40 :: (decimal n ++ [41])

/-- The endings of the files that stand under one name. -/
def endings (extension : Text) : List Text :=
  extension :: if extension = text ".md" then [text ".canvas.json", text ".json"] else []

variable (T : Tables)

def keys (candidate extension : Text) : List Text := (endings extension).map fun ending => toLowerCase T (candidate ++ ending)

/-- The closure of `namer`. Its loop is over as many numbers as can be needed. -/
def name (used : Used) (dir name extension : Text) : Used × Text :=
  let taken := used.taken dir
  let free := (List.range ((endings extension).length * taken.length + 2)).find? fun i =>
    (keys T (candidate name (i + 1)) extension).all fun key => !taken.contains key
  let found := candidate name (free.getD 0 + 1)
  ((keys T found extension).map (fun key => (dir, key)) ++ used, found)

/-! ## What a segment is -/

def AllSafe (s : Text) : Prop := ∀ c ∈ s, UNSAFE c = false

instance : DecidablePred AllSafe := fun s =>
  decidable_of_iff ((s.all fun c => !UNSAFE c) = true) (by simp [AllSafe])

/-- A path segment that names something of its own. -/
def Segment (s : Text) : Prop := s ≠ [] ∧ s ≠ text "." ∧ s ≠ text ".." ∧ AllSafe s

instance : DecidablePred Segment := fun s => inferInstanceAs (Decidable (s ≠ [] ∧ s ≠ text "." ∧ s ≠ text ".." ∧ AllSafe s))

/-- Safe characters, one of them no dot. -/
def Safe (s : Text) : Prop := AllSafe s ∧ ∃ c ∈ s, c ≠ 46

instance : DecidablePred Safe := fun s =>
  decidable_of_iff (AllSafe s ∧ (s.any fun c => c != 46) = true) (by simp [Safe])

theorem Safe.segment {s : Text} (h : Safe s) : Segment s := by
  obtain ⟨hsafe, c, hc, hdot⟩ := h
  have hdots : ∀ n : ℕ, s ≠ List.replicate n 46 := by
    rintro n rfl
    exact hdot (List.eq_of_mem_replicate hc)
  exact ⟨hdots 0, hdots 1, hdots 2, hsafe⟩

theorem AllSafe.append {s t : Text} (hs : AllSafe s) (ht : AllSafe t) : AllSafe (s ++ t) :=
  fun c hc => (List.mem_append.mp hc).elim (hs c) (ht c)

theorem Safe.append {s t : Text} (hs : Safe s) (ht : AllSafe t) : Safe (s ++ t) := by
  obtain ⟨hsafe, c, hc, hdot⟩ := hs
  exact ⟨hsafe.append ht, c, List.mem_append_left t hc, hdot⟩

theorem Safe.prepend {s t : Text} (hs : AllSafe s) (ht : Safe t) : Safe (s ++ t) := by
  obtain ⟨hsafe, c, hc, hdot⟩ := ht
  exact ⟨hs.append hsafe, c, List.mem_append_right s hc, hdot⟩

/-- A segment has no separator. -/
theorem slash_not_mem {s : Text} (h : AllSafe s) : 47 ∉ s := by
  intro hmem
  have hslash : UNSAFE 47 = true := by decide
  exact absurd (h 47 hmem) (by rw [hslash]; decide)

theorem mem_takePoints {c : UInt16} : ∀ {n : ℕ} {s : Text}, c ∈ takePoints n s → c ∈ s := by
  intro n s
  induction n, s using takePoints.induct with
  | case1 s => nofun
  | case2 n => nofun
  | case3 n u => exact id
  | case4 n u v s h ih =>
    intro hc
    rw [takePoints, if_pos h, List.mem_cons, List.mem_cons] at hc
    rcases hc with rfl | rfl | hc
    · exact List.mem_cons_self
    · exact List.mem_cons_of_mem _ List.mem_cons_self
    · exact List.mem_cons_of_mem _ (List.mem_cons_of_mem _ (ih hc))
  | case5 n u v s h ih =>
    intro hc
    rw [takePoints, if_neg h, List.mem_cons] at hc
    rcases hc with rfl | hc
    · exact List.mem_cons_self
    · exact List.mem_cons_of_mem _ (ih hc)

theorem mem_trimEdges {c : UInt16} {s : Text} (h : c ∈ trimEdges s) : c ∈ s := by
  unfold trimEdges at h
  exact (List.dropWhile_sublist _).subset ((List.rdropWhile_prefix _ _).subset h)

/-- What is left of a trimmed text ends with something that is no dot. -/
theorem exists_mem_trimEdges {s : Text} (h : trimEdges s ≠ []) : ∃ c ∈ trimEdges s, c ≠ 46 := by
  unfold trimEdges at h ⊢
  refine ⟨_, List.getLast_mem h, fun hdot => ?_⟩
  have hlast := List.rdropWhile_last_not isEdge _ h
  rw [hdot] at hlast
  exact hlast (by decide)

/-- Every title becomes a segment. -/
theorem safeName_safe (name fallback : Text) (hfallback : Safe fallback) :
    Safe (safeName normalize name fallback) := by
  have hmap : AllSafe ((normalize name).map fun c => if UNSAFE c then 95 else c) := by
    intro c hc
    obtain ⟨d, -, rfl⟩ := List.mem_map.mp hc
    split
    · decide
    · next h => exact Bool.eq_false_iff.mpr h
  unfold safeName
  simp only
  split
  · exact hfallback
  · next hne =>
    have hcleaned : Safe (trimEdges (takePoints MAX_NAME (trimEdges ((normalize name).map fun c => if UNSAFE c then 95 else c)))) :=
      ⟨fun c hc => hmap c (mem_trimEdges (mem_takePoints (mem_trimEdges hc))), exists_mem_trimEdges hne⟩
    split
    · exact Safe.prepend (s := [95]) (by decide) hcleaned
    · exact hcleaned

/-! ## The loop of the namer -/

theorem decimal_injective : Function.Injective decimal := by
  intro n m h
  have hdigits : ∀ k, (decimal k).map (fun u => Char.ofNat u.toNat) = Nat.toDigits 10 k := by
    intro k
    rw [decimal, List.map_map]
    refine (List.map_congr_left fun c hc => ?_).trans (List.map_id _)
    have hrange := Char.isDigit_iff_toNat.mp (Nat.isDigit_of_mem_toDigits (by decide) (by decide) hc)
    have hnine : '9'.toNat = 57 := rfl
    have hmod : c.toNat % 65536 = c.toNat := Nat.mod_eq_of_lt (by omega)
    simp only [Function.comp_apply, UInt16.toNat_ofNat', hmod, Char.ofNat_toNat, id]
  have htext := congrArg (Nat.ofDigitChars 10 · 0) ((hdigits n).symm.trans ((congrArg _ h).trans (hdigits m)))
  simpa only [Nat.ofDigitChars_toDigits (b := 10) (by decide) (by decide)] using htext

/-- ASCII without capitals. -/
def Plain (s : Text) : Prop := ∀ c ∈ s, c.toNat < 128 ∧ ¬(65 ≤ c.toNat ∧ c.toNat ≤ 90)

instance : DecidablePred Plain := fun s =>
  decidable_of_iff ((s.all fun c => c.toNat < 128 ∧ ¬(65 ≤ c.toNat ∧ c.toNat ≤ 90)) = true)
    (by rw [List.all_eq_true]; exact forall₂_congr fun c _ => decide_eq_true_iff)

theorem plain_endings {extension : Text} (h : Plain extension) : ∀ ending ∈ endings extension, Plain ending := by
  intro ending hending
  unfold endings at hending
  rcases List.mem_cons.mp hending with rfl | hending
  · exact h
  · split at hending
    · have hall : ∀ e ∈ [text ".canvas.json", text ".json"], Plain e := by decide
      exact hall ending hending
    · cases hending

theorem plain_decimal (n : ℕ) : Plain (decimal n) := by
  intro c hc
  have hdigit := Web.decimal_digit hc
  rw [UInt16.le_iff_toNat_le, UInt16.le_iff_toNat_le] at hdigit
  have h48 : (48 : UInt16).toNat = 48 := rfl
  have h57 : (57 : UInt16).toNat = 57 := rfl
  omega

variable {T}

theorem Plain.lower {s : Text} (h : Plain s) : toLowerCase T s = s := Casing.toLowerCase_lower h

/-- The candidates with a number differ in lower case. -/
theorem key_injective (base : Text) {ending : Text} (hending : Plain ending) :
    Function.Injective fun i : ℕ => toLowerCase T (candidate base (i + 2) ++ ending) := by
  intro i j h
  have hkey : ∀ k : ℕ, toLowerCase T (candidate base (k + 2) ++ ending) =
      toLowerCase T base ++ 32 :: 40 :: (decimal (k + 2) ++ 41 :: ending) := by
    intro k
    have hplain : Plain (40 :: (decimal (k + 2) ++ 41 :: ending)) := by
      intro c hc
      rcases List.mem_cons.mp hc with rfl | hc
      · decide
      rcases List.mem_append.mp hc with hc | hc
      · exact plain_decimal _ c hc
      rcases List.mem_cons.mp hc with rfl | hc
      · decide
      · exact hending c hc
    have hcandidate : candidate base (k + 2) ++ ending = base ++ 32 :: (40 :: (decimal (k + 2) ++ 41 :: ending)) := by
      simp [candidate]
    rw [hcandidate, Casing.toLowerCase_mark (by decide), hplain.lower]
  simp only [hkey, List.append_cancel_left_eq, List.cons.injEq, true_and, List.append_cancel_right_eq] at h
  have := decimal_injective h
  omega

theorem mem_taken {used : Used} {dir key : Text} : key ∈ used.taken dir ↔ (dir, key) ∈ used := by
  unfold Used.taken
  constructor
  · intro h
    obtain ⟨u, hu, rfl⟩ := List.mem_map.mp h
    obtain ⟨hu, hdir⟩ := List.mem_filter.mp hu
    rw [← of_decide_eq_true hdir]
    exact hu
  · exact fun h => List.mem_map.mpr ⟨(dir, key), List.mem_filter.mpr ⟨h, decide_eq_true rfl⟩, rfl⟩

/-- The loop ends: the name has no key that was taken. -/
theorem name_fresh (used : Used) (dir base extension : Text) (h : Plain extension) :
    ∀ key ∈ keys T (name T used dir base extension).2 extension, (dir, key) ∉ used := by
  obtain ⟨i, hi, hfresh⟩ := Fresh.exists_fresh (used.taken dir)
    ((endings extension).map fun ending i => toLowerCase T (candidate base (i + 2) ++ ending))
    (Finset.range ((endings extension).length * (used.taken dir).length + 1))
    (by
      intro f hf
      obtain ⟨ending, hending, rfl⟩ := List.mem_map.mp hf
      exact key_injective base (plain_endings h ending hending))
    (by rw [Finset.card_range, List.length_map]; exact Nat.lt_succ_self _)
  have hi := Finset.mem_range.mp hi
  have hfind : ((List.range ((endings extension).length * (used.taken dir).length + 2)).find? fun i =>
      (keys T (candidate base (i + 1)) extension).all fun key => !(used.taken dir).contains key).isSome := by
    refine List.find?_isSome.mpr ⟨i + 1, List.mem_range.mpr (by omega), List.all_eq_true.mpr fun key hkey => ?_⟩
    obtain ⟨ending, hending, rfl⟩ := List.mem_map.mp hkey
    have hnot := hfresh _ (List.mem_map_of_mem hending)
    simpa using hnot
  obtain ⟨n, hn⟩ := Option.isSome_iff_exists.mp hfind
  intro key hkey
  have hall := List.find?_some hn
  simp only [name, hn, Option.getD_some] at hkey
  have hkey := List.all_eq_true.mp hall key hkey
  rw [← mem_taken]
  simpa using hkey

theorem digit_safe {c : UInt16} (h : 48 ≤ c ∧ c ≤ 57) : UNSAFE c = false := by
  have hall : ∀ d ∈ List.range 10, UNSAFE (UInt16.ofNat (48 + d)) = false := by decide
  rw [UInt16.le_iff_toNat_le, UInt16.le_iff_toNat_le] at h
  have h48 : (48 : UInt16).toNat = 48 := rfl
  have h57 : (57 : UInt16).toNat = 57 := rfl
  have hc := hall (c.toNat - 48) (List.mem_range.mpr (by omega))
  rwa [Nat.add_sub_cancel' (by omega), UInt16.ofNat_toNat] at hc

theorem candidate_safe {base : Text} (h : Safe base) (n : ℕ) : Safe (candidate base n) := by
  unfold candidate
  split
  · exact h
  · have hdigits : AllSafe (decimal n) := fun c hc => digit_safe (Web.decimal_digit hc)
    have hopen : AllSafe [32, 40] := by decide
    exact h.append (hopen.append (hdigits.append (by decide)))

/-- The namer's name is a candidate, and its keys are taken afterwards. -/
theorem name_eq (used : Used) (dir base extension : Text) : (∃ n, (name T used dir base extension).2 = candidate base n) ∧
    (name T used dir base extension).1 =
      (keys T (name T used dir base extension).2 extension).map (fun key => (dir, key)) ++ used :=
  ⟨⟨_, rfl⟩, rfl⟩

/-- A name that is free is kept. -/
theorem name_eq_base (used : Used) (dir base extension : Text)
    (h : ∀ key ∈ keys T base extension, (dir, key) ∉ used) :
    name T used dir base extension = ((keys T base extension).map (fun key => (dir, key)) ++ used, base) := by
  have hfind : (List.range ((endings extension).length * (used.taken dir).length + 2)).find? (fun i =>
      (keys T (candidate base (i + 1)) extension).all fun key => !(used.taken dir).contains key) = some 0 := by
    rw [List.range_succ_eq_map, List.find?_cons_of_pos]
    refine List.all_eq_true.mpr fun key hkey => ?_
    have hnot : key ∉ used.taken dir := fun hmem => h key hkey (mem_taken.mp hmem)
    simpa using hnot
  simp only [name, hfind, Option.getD_some]
  rfl

theorem name_subset (used : Used) (dir base extension : Text) : used ⊆ (name T used dir base extension).1 :=
  List.subset_append_right _ _

end KyNotes.Export
