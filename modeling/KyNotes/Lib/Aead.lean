import KyNotes.Lib.Fields

/-!
# Ideal authenticated encryption

A key derivation and an AEAD over it, as functions. They are ideal if a text opens just when it was sealed so, the
derivation is injective and no sealed text ends in a text sealed with another key, nonce, associated data or plaintext.

Ideal texts have no bound on their length: what is sealed under infinitely many data is never the same text. The
transparent cipher, which writes all of its arguments into the text, is ideal in this sense.
-/

universe u

/-- A derivation from key, salt and info, and an AEAD with nonce and associated data. -/
structure Aead (α : Type u) where
  /-- The derived keys. -/
  Key : Type u
  hkdf (key salt info : List α) : Key
  encrypt (key : Key) (nonce data plaintext : List α) : List α
  decrypt (key : Key) (nonce data sealed : List α) : Option (List α)

namespace Aead

variable {α : Type u}

/-- `tag` is the least length of a sealed text. -/
structure Ideal (A : Aead α) (tag : ℕ) : Prop where
  hkdf_inj {k s i k' s' i'} : A.hkdf k s i = A.hkdf k' s' i' → k = k' ∧ s = s' ∧ i = i'
  decrypt_iff {k n d c p} : A.decrypt k n d c = some p ↔ c = A.encrypt k n d p
  long (k n d p) : tag ≤ (A.encrypt k n d p).length
  apart {k n d p k' n' d' p'} : A.encrypt k n d p <:+ A.encrypt k' n' d' p' → k = k' ∧ n = n' ∧ d = d' ∧ p = p'

namespace Ideal

variable {A : Aead α} {tag : ℕ} {k k' : A.Key} {n n' d d' p p' c : List α}

theorem decrypt_encrypt (h : A.Ideal tag) (k : A.Key) (n d p : List α) : A.decrypt k n d (A.encrypt k n d p) = some p :=
  h.decrypt_iff.2 rfl

/-- What opens and ends a sealed text was sealed so. -/
theorem decrypt_suffix (h : A.Ideal tag) (hs : c <:+ A.encrypt k' n' d' p') (ho : A.decrypt k n d c = some p) :
    k = k' ∧ n = n' ∧ d = d' ∧ p = p' := by
  obtain rfl := h.decrypt_iff.1 ho
  exact h.apart hs

/-- What opens and ends in a sealed text was sealed so. -/
theorem decrypt_extension (h : A.Ideal tag) (hs : A.encrypt k' n' d' p' <:+ c) (ho : A.decrypt k n d c = some p) :
    k' = k ∧ n' = n ∧ d' = d ∧ p' = p := by
  obtain rfl := h.decrypt_iff.1 ho
  exact h.apart hs

end Ideal

/-! ## The transparent cipher -/

section Transparent

variable (zero one : α) (tag : ℕ)

/-- The arguments, the plaintext first. -/
def arguments (k : List α × List α × List α) (n d p : List α) : List α :=
  [p, d, n, k.1, k.2.1, k.2.2].flatMap (Fields.unary zero one)

/-- The arguments, from the end of the text. -/
def transparentEncrypt (k : List α × List α × List α) (n d p : List α) : List α :=
  List.replicate tag zero ++ (arguments zero one k n d p).reverse

variable {zero one}

/-- Read from the end, both texts are six fields and a rest. -/
theorem transparentEncrypt_apart (h : zero ≠ one) {k k' : List α × List α × List α} {n n' d d' p p' : List α}
    (hs : transparentEncrypt zero one tag k n d p <:+ transparentEncrypt zero one tag k' n' d' p') :
    k = k' ∧ n = n' ∧ d = d' ∧ p = p' := by
  obtain ⟨t, ht⟩ := hs
  have e := congrArg List.reverse ht
  simp only [transparentEncrypt, List.reverse_append, List.reverse_reverse, List.append_assoc] at e
  obtain ⟨he, -⟩ := (Fields.delimiting_unary h).flatMap (by simp) (by simp) (by simp) e
  simp only [List.cons.injEq, and_true] at he
  obtain ⟨hp, hd, hn, h₁, h₂, h₃⟩ := he
  exact ⟨Prod.ext h₁ (Prod.ext h₂ h₃), hn, hd, hp⟩

variable [DecidableEq α]

variable (zero one)

/-- The plaintext that the text begins with, read from its end, if the other arguments are those. -/
def transparentDecrypt (k : List α × List α × List α) (n d c : List α) : Option (List α) :=
  let p := Fields.unaryHead one c.reverse
  if c = transparentEncrypt zero one tag k n d p then some p else none

/-- Every argument in its sealed text. -/
def transparent : Aead α where
  Key := List α × List α × List α
  hkdf k s i := (k, s, i)
  encrypt := transparentEncrypt zero one tag
  decrypt := transparentDecrypt zero one tag

variable {zero one}

theorem unaryHead_transparentEncrypt (h : zero ≠ one) (k : List α × List α × List α) (n d p : List α) :
    Fields.unaryHead one (transparentEncrypt zero one tag k n d p).reverse = p := by
  simp only [transparentEncrypt, arguments, List.reverse_append, List.reverse_reverse, List.flatMap_cons,
    List.append_assoc]
  exact Fields.unaryHead_unary h _ _

theorem transparentDecrypt_iff (h : zero ≠ one) {k : List α × List α × List α} {n d c p : List α} :
    transparentDecrypt zero one tag k n d c = some p ↔ c = transparentEncrypt zero one tag k n d p := by
  simp only [transparentDecrypt, Option.ite_none_right_eq_some, Option.some.injEq]
  constructor
  · rintro ⟨hc, rfl⟩
    exact hc
  · rintro rfl
    rw [unaryHead_transparentEncrypt tag h]
    exact ⟨rfl, rfl⟩

theorem ideal_transparent (h : zero ≠ one) : (transparent zero one tag).Ideal tag where
  hkdf_inj e := by simpa [transparent] using e
  decrypt_iff := transparentDecrypt_iff tag h
  long k n d p := by simp [transparent, transparentEncrypt]
  apart := transparentEncrypt_apart tag h

end Transparent

end Aead
