import KyNotes.Lib.Digits
import Mathlib.Data.List.Flatten
import Mathlib.Data.UInt

/-!
# Self-delimiting fields

A field code is self-delimiting if what follows a coded field does not matter to where the field ends. A list of fields,
coded one after the other, is then determined by its bytes.
-/

namespace Fields

variable {α : Type*} {P : List α → Prop} {code : List α → List α}

/-- On the fields of `P`, equal texts that begin with coded fields have equal fields and equal rests. -/
def Delimiting (P : List α → Prop) (code : List α → List α) : Prop :=
  ∀ ⦃x y u v⦄, P x → P y → code x ++ u = code y ++ v → x = y ∧ u = v

/-- Induction on the fields; each is split off by the code. -/
theorem Delimiting.flatMap (h : Delimiting P code) :
    ∀ {xs ys : List (List α)} {u v : List α}, xs.length = ys.length → (∀ x ∈ xs, P x) → (∀ y ∈ ys, P y) →
      xs.flatMap code ++ u = ys.flatMap code ++ v → xs = ys ∧ u = v
  | [], [], _, _, _, _, _, e => ⟨rfl, by simpa using e⟩
  | x :: xs, y :: ys, u, v, hl, hx, hy, e => by
    simp only [List.flatMap_cons, List.append_assoc] at e
    obtain ⟨rfl, e'⟩ := h (hx x (by simp)) (hy y (by simp)) e
    obtain ⟨rfl, rfl⟩ := h.flatMap (by simpa using hl) (fun a ha => hx a (by simp [ha]))
      (fun a ha => hy a (by simp [ha])) e'
    exact ⟨rfl, rfl⟩

/-- A length of a fixed size, then the field. -/
theorem delimiting_prefixed {len : ℕ → List α} {k b : ℕ} (hk : ∀ n, (len n).length = k)
    (hlen : ∀ {m n}, m < b → n < b → len m = len n → m = n) :
    Delimiting (fun x => x.length < b) fun x => len x.length ++ x := by
  intro x y u v hx hy e
  simp only [List.append_assoc] at e
  obtain ⟨hl, e'⟩ := List.append_inj e (by rw [hk, hk])
  exact List.append_inj e' (hlen hx hy hl)

/-! ## The length in unary -/

section Unary

variable {zero one : α}

/-- As many `one`s as the field is long, a `zero`, the field. -/
def unary (zero one : α) (x : List α) : List α := List.replicate x.length one ++ zero :: x

theorem replicate_cons_inj (h : zero ≠ one) {u v : List α} :
    ∀ {m n : ℕ}, List.replicate m one ++ zero :: u = List.replicate n one ++ zero :: v → m = n ∧ u = v
  | 0, 0, e => ⟨rfl, by simpa using e⟩
  | 0, n + 1, e => absurd (by simpa [List.replicate_succ] using e : zero = one ∧ _).1 h
  | m + 1, 0, e => absurd (by simpa [List.replicate_succ] using e.symm : zero = one ∧ _).1 h
  | m + 1, n + 1, e => by
    obtain ⟨rfl, rfl⟩ := replicate_cons_inj h (by simpa [List.replicate_succ] using e : _ = _)
    exact ⟨rfl, rfl⟩

theorem delimiting_unary (h : zero ≠ one) : Delimiting (fun _ => True) (unary zero one) := by
  intro x y u v _ _ e
  simp only [unary, List.append_assoc, List.cons_append] at e
  obtain ⟨hl, e'⟩ := replicate_cons_inj h e
  exact List.append_inj e' hl

/-- The first field. -/
def unaryHead [DecidableEq α] (one : α) (x : List α) : List α :=
  let n := (x.takeWhile (· = one)).length
  (x.drop (n + 1)).take n

theorem unaryHead_unary [DecidableEq α] (h : zero ≠ one) (x u : List α) : unaryHead one (unary zero one x ++ u) = x := by
  have hw : (unary zero one x ++ u).takeWhile (· = one) = List.replicate x.length one := by
    rw [unary, List.append_assoc, List.takeWhile_append_of_pos (by simp)]
    simp [h]
  simp only [unaryHead, hw, List.length_replicate]
  simp [unary, List.drop_append]

end Unary

/-! ## The length in two bytes, big-endian -/

section Be16

/-- The two bytes of a number, modulo `2 ^ 16`. -/
def be16 (n : ℕ) : List UInt8 := [UInt8.ofNat (n / 256), UInt8.ofNat n]

theorem be16_inj {m n : ℕ} (hm : m < 2 ^ 16) (hn : n < 2 ^ 16) (h : be16 m = be16 n) : m = n := by
  simp only [be16, List.cons.injEq, and_true] at h
  have h₁ := congrArg UInt8.toNat h.1
  have h₂ := congrArg UInt8.toNat h.2
  simp only [UInt8.toNat_ofNat'] at h₁ h₂
  omega

/-- The length, then the field. -/
def lengthPrefixed (x : List UInt8) : List UInt8 := be16 x.length ++ x

theorem delimiting_lengthPrefixed : Delimiting (fun x => x.length < 2 ^ 16) lengthPrefixed :=
  delimiting_prefixed (k := 2) (fun _ => rfl) be16_inj

end Be16

/-! ## The length in eight bytes, big-endian -/

section Be64

/-- The eight bytes of a number, modulo `2 ^ 64`. -/
def be64 (n : ℕ) : List UInt8 := (Digits.digits 256 8 n).map UInt8.ofNat

theorem length_be64 (n : ℕ) : (be64 n).length = 8 := by
  rw [be64, List.length_map, Digits.length_digits]

theorem be64_inj {m n : ℕ} (hm : m < 2 ^ 64) (hn : n < 2 ^ 64) (h : be64 m = be64 n) : m = n := by
  have hvalue : ∀ {k : ℕ}, k < 2 ^ 64 → Digits.value 256 ((be64 k).map UInt8.toNat) = k := by
    intro k hk
    rw [be64, Digits.toNat_ofNat_digits, Digits.value_digits]
    exact Nat.mod_eq_of_lt hk
  rw [← hvalue hm, h, hvalue hn]

/-- The length, then the field. -/
def longPrefixed (x : List UInt8) : List UInt8 := be64 x.length ++ x

theorem delimiting_longPrefixed : Delimiting (fun x => x.length < 2 ^ 64) longPrefixed :=
  delimiting_prefixed length_be64 be64_inj

end Be64

/-! ## Fields of several kinds -/

section Tells

variable {ι κ κ' β : Type*} {P : ι → Prop} {code code' : ι → List β} {f : ι → κ} {g : ι → κ'}

/-- Among the values of `P`, a text that begins with the code of one tells what `f` is of it, and where the code ends. -/
def Tells (P : ι → Prop) (code : ι → List β) (f : ι → κ) : Prop :=
  ∀ ⦃x y u v⦄, P x → P y → code x ++ u = code y ++ v → f x = f y ∧ u = v

theorem Tells.append (h : Tells P code f) (h' : Tells P code' g) :
    Tells P (fun x => code x ++ code' x) fun x => (f x, g x) := by
  intro x y u v hx hy e
  rw [List.append_assoc, List.append_assoc] at e
  obtain ⟨hf, e'⟩ := h hx hy e
  obtain ⟨hg, huv⟩ := h' hx hy e'
  exact ⟨Prod.ext hf hg, huv⟩

/-- A code of one length for all values. -/
theorem Tells.of_length {n : ℕ} (hlength : ∀ x, (code x).length = n) (h : ∀ ⦃x y⦄, P x → P y → code x = code y → f x = f y) :
    Tells P code f := by
  intro x y u v hx hy e
  obtain ⟨hcode, huv⟩ := List.append_inj e ((hlength x).trans (hlength y).symm)
  exact ⟨h hx hy hcode, huv⟩

theorem Delimiting.tells {α : Type*} {Q : List α → Prop} {c : List α → List α} (h : Delimiting Q c) {f : ι → List α}
    (hf : ∀ x, P x → Q (f x)) : Tells P (fun x => c (f x)) f :=
  fun _ _ _ _ hx hy e => h (hf _ hx) (hf _ hy) e

/-- Values are told by the whole text, whatever stands before it. -/
theorem Tells.eq (h : Tells P code f) {x y : ι} (hx : P x) (hy : P y) {u : List β} (e : u ++ code x = u ++ code y) :
    f x = f y :=
  (h hx hy (congrArg (· ++ []) (List.append_cancel_left e))).1

end Tells

end Fields
