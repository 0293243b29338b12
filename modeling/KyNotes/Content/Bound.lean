import KyNotes.Content.Sealing

/-!
# Content is bound to its place

Both clients seal to one form and read two. A v2 ciphertext is `2`, a nonce and a text sealed under the associated data of
its place; a v1 ciphertext is a nonce and a text sealed under none. Each read takes the tail of the bytes for the text, so
that under an ideal cipher a ciphertext opens only as what it was sealed as (`V2.opensV2`, `V2.not_opensV1`,
`V1.not_opensV2`), whichever client sealed and whichever opens.
-/

namespace KyNotes.Content

open Check
open Web (JsString)

variable {A : Aead UInt8} {key key' container label c p p' : Bytes} {T T' : Place Bytes} {S : Place JsString} {v1 legacy : Bool}

/-! ## The associated data -/

/-- Fields of fewer than `2 ^ 16` bytes. -/
def Place.Short (T : Place Bytes) : Prop :=
  T.container.length < 2 ^ 16 ∧ T.bound.length < 2 ^ 16 ∧ T.kind.length < 2 ^ 16

instance (T : Place Bytes) : Decidable T.Short := inferInstanceAs (Decidable (_ ∧ _))

/-- The place that a place of the web client is. -/
def Place.encode (S : Place JsString) : Place Bytes := S.map Utf16.encode

theorem length_contentLabel : Notecrypto.contentLabel.length < 2 ^ 16 := by decide +kernel

theorem encode_contentV2 : Utf16.encode Crypto.contentV2 = Notecrypto.contentLabel := Utf16.encode_ofText _

theorem Place.Short.fields (h : T.Short) :
    ∀ f ∈ [Notecrypto.contentLabel, T.container, T.bound, T.kind], f.length < 2 ^ 16 := by
  obtain ⟨hc, hb, hk⟩ := h
  intro f hf
  simp only [List.mem_cons, List.not_mem_nil, or_false] at hf
  rcases hf with rfl | rfl | rfl | rfl
  · exact length_contentLabel
  · exact hc
  · exact hb
  · exact hk

theorem contentAAD_inj (h : T.Short) (h' : T'.Short) (e : Notecrypto.contentAAD T = Notecrypto.contentAAD T') :
    T = T' := by
  have hf := (Fields.delimiting_lengthPrefixed.flatMap (u := []) (v := []) (by simp) h.fields h'.fields
    (by simpa [Notecrypto.contentAAD] using e)).1
  simp only [List.cons.injEq, and_true, true_and] at hf
  obtain ⟨hc, hb, hk⟩ := hf
  cases T
  cases T'
  simp_all

theorem contentAAD_ne_nil (T : Place Bytes) : Notecrypto.contentAAD T ≠ [] := by
  simp [Notecrypto.contentAAD, Fields.lengthPrefixed, Fields.be16]

theorem field_ok {f b : Bytes} : Crypto.field f = .ok b ↔ f.length < 2 ^ 16 ∧ Fields.lengthPrefixed f = b := by
  simp only [Crypto.field, bind_ok, require_ok, pure_ok, exists_const]
  rw [show f.length ≤ 0xffff ↔ f.length < 2 ^ 16 by omega]

/-- The loop over the fields. -/
theorem mapM_field_ok : ∀ {fs bs : List Bytes}, fs.mapM Crypto.field = .ok bs ↔
    (∀ f ∈ fs, f.length < 2 ^ 16) ∧ fs.map Fields.lengthPrefixed = bs
  | [], bs => by simp
  | f :: fs, bs => by
    simp only [List.mapM_cons, bind_ok, pure_ok, field_ok, mapM_field_ok, List.forall_mem_cons, List.map_cons]
    constructor
    · rintro ⟨_, ⟨hf, rfl⟩, _, ⟨hfs, rfl⟩, rfl⟩
      exact ⟨⟨hf, hfs⟩, rfl⟩
    · rintro ⟨⟨hf, hfs⟩, rfl⟩
      exact ⟨_, ⟨hf, rfl⟩, _, ⟨hfs, rfl⟩, rfl⟩

/-- The web client's bytes are Go's, for a bound ID and fields that it takes. -/
theorem contentAAD_ok {a : Bytes} : Crypto.contentAAD S = .ok a ↔
    S.bound ≠ [] ∧ S.encode.Short ∧ Notecrypto.contentAAD S.encode = a := by
  have hs : (∀ f ∈ [Crypto.contentV2, S.container, S.bound, S.kind].map Utf16.encode, f.length < 2 ^ 16) ↔
      S.encode.Short := by
    simp only [List.map_cons, List.map_nil, List.forall_mem_cons, List.not_mem_nil, false_imp_iff, implies_true, and_true,
      encode_contentV2, length_contentLabel, true_and]
    rfl
  have ha : (([Crypto.contentV2, S.container, S.bound, S.kind].map Utf16.encode).map Fields.lengthPrefixed).flatten =
      Notecrypto.contentAAD S.encode := by
    simp only [List.map_cons, List.map_nil, encode_contentV2]
    rfl
  simp only [Crypto.contentAAD, bind_ok, require_ok, pure_ok, exists_const, mapM_field_ok, hs]
  constructor
  · rintro ⟨hb, _, ⟨hS, rfl⟩, rfl⟩
    exact ⟨hb, hS, ha.symm⟩
  · rintro ⟨hb, hS, rfl⟩
    exact ⟨hb, _, ⟨hS, rfl⟩, ha⟩

/-! ## The two forms -/

section Forms

variable (A : Aead UInt8)

/-- Sealed for a place. -/
def v2Form (key : Bytes) (T : Place Bytes) (n : Nonce) (p : Bytes) : Bytes :=
  version2 :: (n.val ++ A.encrypt (A.hkdf key T.container Notecrypto.contentLabel) n (Notecrypto.contentAAD T) p)

/-- The unbound form. -/
def v1Form (key container label : Bytes) (n : Nonce) (p : Bytes) : Bytes :=
  n.val ++ A.encrypt (A.hkdf key container label) n [] p

/-- A read of the text after the nonce. -/
def OpensWith (k : A.Key) (aad sealed p : Bytes) : Prop :=
  Notecrypto.minSealed ≤ sealed.length ∧ A.decrypt k (sealed.take nonceSize) aad (sealed.drop nonceSize) = some p

/-- The v2 read. -/
def OpensV2 (key : Bytes) (T : Place Bytes) (c p : Bytes) : Prop :=
  c.head? = some version2 ∧
    OpensWith A (A.hkdf key T.container Notecrypto.contentLabel) (Notecrypto.contentAAD T) c.tail p

/-- The v1 read. -/
def OpensV1 (key container label c p : Bytes) : Prop := OpensWith A (A.hkdf key container label) [] c p

end Forms

variable {n : Nonce}

theorem take_nonce (n : Nonce) (c : Bytes) : (n.val ++ c).take nonceSize = n.val := by
  rw [List.take_append_of_le_length (by rw [n.2]), List.take_of_length_le (by rw [n.2])]

theorem drop_nonce (n : Nonce) (c : Bytes) : (n.val ++ c).drop nonceSize = c :=
  List.drop_left' n.2

theorem opensWith_nonce {k : A.Key} {aad : Bytes} (h : A.Ideal 16) (n : Nonce) (p : Bytes) :
    OpensWith A k aad (n.val ++ A.encrypt k n aad p) p := by
  refine ⟨?_, ?_⟩
  · rw [List.length_append, n.2]
    exact Nat.add_le_add_left (h.long ..) _
  · rw [take_nonce, drop_nonce]
    exact h.decrypt_encrypt ..

theorem opensV2_v2Form (h : A.Ideal 16) : OpensV2 A key T (v2Form A key T n p) p := ⟨rfl, opensWith_nonce h n p⟩

theorem v2Form_bound (h : A.Ideal 16) (hT : T.Short) (hT' : T'.Short) (ho : OpensV2 A key' T' (v2Form A key T n p) p') :
    key' = key ∧ T' = T ∧ p' = p := by
  have hd := ho.2.2
  rw [v2Form, List.tail_cons, take_nonce, drop_nonce] at hd
  obtain ⟨hk, -, ha, hp⟩ := h.decrypt_suffix (List.suffix_refl _) hd
  exact ⟨(h.hkdf_inj hk).1, contentAAD_inj hT' hT ha, hp⟩

/-- The bytes of a v2 ciphertext end in a text that was sealed under some data. -/
theorem v2Form_not_opensV1 (h : A.Ideal 16) : ¬ OpensV1 A key' container label (v2Form A key T n p) p' := by
  rintro ⟨-, hd⟩
  have hs : A.encrypt (A.hkdf key T.container Notecrypto.contentLabel) n (Notecrypto.contentAAD T) p <:+
      (v2Form A key T n p).drop nonceSize := by
    have hn : 11 ≤ n.val.length := by rw [n.2]; decide
    exact ⟨n.val.drop 11, (List.drop_append_of_le_length hn).symm⟩
  exact contentAAD_ne_nil T (h.decrypt_extension hs hd).2.2.1

/-- The text that a v2 read takes of a v1 ciphertext ends a text that was sealed under no data. -/
theorem v1Form_not_opensV2 (h : A.Ideal 16) : ¬ OpensV2 A key' T' (v1Form A key container label n p) p' := by
  rintro ⟨-, -, hd⟩
  have hs : ((v1Form A key container label n p).tail).drop nonceSize <:+ A.encrypt (A.hkdf key container label) n [] p := by
    rw [← List.drop_one, List.drop_drop, Nat.add_comm, ← List.drop_drop, v1Form, drop_nonce]
    exact List.drop_suffix ..
  exact contentAAD_ne_nil T' (h.decrypt_suffix hs hd).2.2.1

/-! ## Both clients use the two forms -/

/-- The sources of the web client and of Go, on one line: try v2 after its first byte, then v1 where it is allowed. -/
theorem fallback_ok {q : Prop} [Decidable q] {x y : Except String Bytes} {e : String} {r : Bytes × Bool}
    (h : (if q then
      match x with
      | .ok p => .ok (p, false)
      | .error e => if v1 then y.map (fun p => (p, true)) else .error e
    else if v1 then y.map (fun p => (p, true)) else .error e) = .ok r) :
    q ∧ x = .ok r.1 ∨ v1 = true ∧ y = .ok r.1 := by
  have hy : (if v1 then y.map (fun p => (p, true)) else .error e) = .ok r → v1 = true ∧ y = .ok r.1 := by
    intro h
    split at h
    · rename_i hv
      cases y with
      | error e => cases h
      | ok p => cases h; exact ⟨hv, rfl⟩
    · cases h
  split at h
  · rename_i hq
    cases x with
    | ok p => cases h; exact .inl ⟨hq, rfl⟩
    | error e' =>
      cases hv : v1 with
      | true => exact .inr ⟨rfl, (hy (by simpa [hv] using h)).2⟩
      | false => simp [hv] at h
  · exact .inr (hy h)

namespace Notecrypto

/-- The checks of Go. -/
def Accepts (key : Bytes) (T : Place Bytes) : Prop :=
  key.length = 32 ∧ containerID T.container = true ∧ checkBound T = .ok ()

theorem aead_ok {k : A.Key} : aead A key container label = .ok k ↔
    (key.length = 32 ∧ containerID container = true) ∧ A.hkdf key container label = k := by
  simp only [aead, bind_ok, require_ok, pure_ok, exists_const]

theorem sealNonce_ok : sealNonce A key T n p = .ok c ↔ Accepts key T ∧ v2Form A key T n p = c := by
  simp only [sealNonce, bind_ok, aead_ok, pure_ok]
  constructor
  · rintro ⟨_, ⟨hk, rfl⟩, _, hb, rfl⟩
    exact ⟨⟨hk.1, hk.2, hb⟩, rfl⟩
  · rintro ⟨⟨hk, hc, hb⟩, rfl⟩
    exact ⟨_, ⟨⟨hk, hc⟩, rfl⟩, _, hb, rfl⟩

theorem openWith_ok {sealed aad : Bytes} : openWith A key container label sealed aad = .ok p ↔
    (key.length = 32 ∧ containerID container = true) ∧ OpensWith A (A.hkdf key container label) aad sealed p := by
  simp only [openWith, bind_ok, aead_ok, require_ok, fetch_ok, exists_const, OpensWith, and_assoc, exists_and_left,
    exists_eq_left']

/-- Go opens only what its checks accept, in one of the two forms. -/
theorem openSealed_ok (h : openSealed A key T label c v1 = .ok (p, legacy)) :
    Accepts key T ∧ (OpensV2 A key T c p ∨ v1 = true ∧ OpensV1 A key T.container label c p) := by
  obtain ⟨_, hb, ho⟩ := bind_ok.1 h
  obtain ⟨hq, hx⟩ | ⟨hv, hy⟩ := fallback_ok ho
  · obtain ⟨hk, hw⟩ := openWith_ok.1 hx
    exact ⟨⟨hk.1, hk.2, hb⟩, .inl ⟨hq, hw⟩⟩
  · obtain ⟨hk, hw⟩ := openWith_ok.1 hy
    exact ⟨⟨hk.1, hk.2, hb⟩, .inr ⟨hv, hw⟩⟩

theorem openSealed_v2 (hT : Accepts key T) (ho : OpensV2 A key T c p) :
    openSealed A key T label c v1 = .ok (p, false) := by
  obtain ⟨hk, hc, hb⟩ := hT
  have hw := openWith_ok.2 ⟨⟨hk, hc⟩, ho.2⟩
  simp only [openSealed, bind_ok, hb, ho.1, hw, if_true, exists_const, and_self]

end Notecrypto

namespace Crypto

/-- The checks of the web client. -/
def Accepts (key : Bytes) (S : Place JsString) : Prop := key.length = 32 ∧ S.bound ≠ [] ∧ S.encode.Short

theorem deriveObjectKeyBytes_ok {cid info : JsString} {k : A.Key} : deriveObjectKeyBytes A key cid info = .ok k ↔
    key.length = 32 ∧ A.hkdf key (Utf16.encode cid) (Utf16.encode info) = k := by
  simp only [deriveObjectKeyBytes, bind_ok, require_ok, pure_ok, exists_const]

theorem sealContent_ok : sealContent A key S n p = .ok c ↔ Accepts key S ∧ v2Form A key S.encode n p = c := by
  simp only [sealContent, bind_ok, deriveObjectKeyBytes_ok, contentAAD_ok, pure_ok]
  constructor
  · rintro ⟨_, ⟨hk, rfl⟩, _, ⟨hb, hS, rfl⟩, rfl⟩
    rw [encode_contentV2]
    exact ⟨⟨hk, hb, hS⟩, rfl⟩
  · rintro ⟨⟨hk, hb, hS⟩, rfl⟩
    refine ⟨_, ⟨hk, rfl⟩, _, ⟨hb, hS, rfl⟩, ?_⟩
    rw [encode_contentV2]
    rfl

theorem decryptWithKey_some {k : A.Key} {aad : Bytes} :
    decryptWithKey A k c (some aad) = .ok p ↔ OpensWith A k aad c.tail p := by
  have hl : 1 + 28 ≤ c.length ↔ Notecrypto.minSealed ≤ c.tail.length := by
    rw [List.length_tail, show Notecrypto.minSealed = 28 from rfl]
    omega
  simp only [decryptWithKey, bind_ok, require_ok, fetch_ok, exists_const, OpensWith, Option.isSome_some, if_true,
    Option.getD_some, hl, ← List.drop_one, List.drop_drop, nonceSize]

theorem decryptWithKey_none {k : A.Key} : decryptWithKey A k c none = .ok p ↔ OpensWith A k [] c p := by
  simp only [decryptWithKey, bind_ok, require_ok, fetch_ok, exists_const, OpensWith, Option.isSome_none,
    Bool.false_eq_true, if_false, Option.getD_none, List.drop_zero, Nat.zero_add]
  rfl

theorem openV2_ok : openV2 A key S c = .ok p ↔
    Accepts key S ∧ OpensWith A (A.hkdf key S.encode.container Notecrypto.contentLabel)
      (Notecrypto.contentAAD S.encode) c.tail p := by
  simp only [openV2, bind_ok, deriveObjectKeyBytes_ok, contentAAD_ok, encode_contentV2]
  constructor
  · rintro ⟨_, ⟨hk, rfl⟩, _, ⟨hb, hS, rfl⟩, hd⟩
    exact ⟨⟨hk, hb, hS⟩, decryptWithKey_some.1 hd⟩
  · rintro ⟨⟨hk, hb, hS⟩, ho⟩
    exact ⟨_, ⟨hk, rfl⟩, _, ⟨hb, hS, rfl⟩, decryptWithKey_some.2 ho⟩

theorem openV1_ok {v1Label : JsString} : openV1 A key S v1Label c = .ok p ↔
    key.length = 32 ∧ OpensV1 A key S.encode.container (Utf16.encode v1Label) c p := by
  simp only [openV1, bind_ok, deriveObjectKeyBytes_ok]
  constructor
  · rintro ⟨_, ⟨hk, rfl⟩, hd⟩
    exact ⟨hk, decryptWithKey_none.1 hd⟩
  · rintro ⟨hk, ho⟩
    exact ⟨_, ⟨hk, rfl⟩, decryptWithKey_none.2 ho⟩

/-- The web client opens one of the two forms. -/
theorem openContent_ok {v1Label : JsString} (h : openContent A key S v1Label c v1 = .ok (p, legacy)) :
    OpensV2 A key S.encode c p ∨ v1 = true ∧ OpensV1 A key S.encode.container (Utf16.encode v1Label) c p := by
  obtain ⟨hq, hx⟩ | ⟨hv, hy⟩ := fallback_ok h
  · exact .inl ⟨hq, (openV2_ok.1 hx).2⟩
  · exact .inr ⟨hv, (openV1_ok.1 hy).2⟩

theorem openContent_v2 {v1Label : JsString} (hS : Accepts key S) (ho : OpensV2 A key S.encode c p) :
    openContent A key S v1Label c v1 = .ok (p, false) := by
  have hx := openV2_ok.2 ⟨hS, ho.2⟩
  simp only [openContent, ho.1, hx, if_true]

end Crypto

/-! ## Either client -/

section Clients

variable (A : Aead UInt8)

/-- Sealed by one of the clients for a place. -/
inductive Sealed (key : Bytes) (T : Place Bytes) (p c : Bytes) : Prop
  | go (n : Nonce) (h : Notecrypto.sealNonce A key T n p = .ok c)
  | web (S : Place JsString) (n : Nonce) (hS : S.encode = T) (h : Crypto.sealContent A key S n p = .ok c)

/-- Opened by one of the clients at a place. -/
inductive Opened (key : Bytes) (T : Place Bytes) (v1 : Bool) (c p : Bytes) : Prop
  | go (label : Bytes) (legacy : Bool) (h : Notecrypto.openSealed A key T label c v1 = .ok (p, legacy))
  | web (S : Place JsString) (v1Label : JsString) (legacy : Bool) (hS : S.encode = T)
      (h : Crypto.openContent A key S v1Label c v1 = .ok (p, legacy))

end Clients

theorem Sealed.form (h : Sealed A key T p c) : ∃ n, v2Form A key T n p = c := by
  cases h with
  | go n h => exact ⟨n, (Notecrypto.sealNonce_ok.1 h).2⟩
  | web S n hS h =>
    subst hS
    exact ⟨n, (Crypto.sealContent_ok.1 h).2⟩

theorem Opened.form (h : Opened A key T v1 c p) :
    OpensV2 A key T c p ∨ v1 = true ∧ ∃ label, OpensV1 A key T.container label c p := by
  cases h with
  | go label legacy h => exact (Notecrypto.openSealed_ok h).2.imp_right fun h => ⟨h.1, _, h.2⟩
  | web S v1Label legacy hS h =>
    subst hS
    exact (Crypto.openContent_ok h).imp_right fun h => ⟨h.1, _, h.2⟩

/-- Go binds to the container itself or to an object ID, neither of which is empty. -/
theorem bound_ne_nil (hc : Notecrypto.containerID T.container = true) (hb : Notecrypto.checkBound T = .ok ()) :
    T.bound ≠ [] := by
  intro h
  rw [Notecrypto.checkBound, require_ok, h] at hb
  obtain ⟨-, he⟩ | ⟨-, ho⟩ := hb
  · rw [← he] at hc
    exact absurd hc (by decide)
  · exact absurd ho (by decide)

/-- The web client takes what either client seals. -/
theorem Sealed.accepts (h : Sealed A key S.encode p c) (hS : S.encode.Short) : Crypto.Accepts key S := by
  have hb {S' : Place JsString} : S'.encode.bound = [] ↔ S'.bound = [] := Utf16.encode_eq_nil
  cases h with
  | go n h =>
    obtain ⟨hk, hc, hn⟩ := (Notecrypto.sealNonce_ok.1 h).1
    exact ⟨hk, mt hb.2 (bound_ne_nil hc hn), hS⟩
  | web S' n he h =>
    obtain ⟨hk, hn, -⟩ := (Crypto.sealContent_ok.1 h).1
    rw [Ne, ← hb, he, hb] at hn
    exact ⟨hk, hn, hS⟩

theorem ofText_contentAAD_inj {T T' : Place String} {a : Bytes} (h : Crypto.contentAAD (T.map Utf16.ofText) = .ok a)
    (h' : Crypto.contentAAD (T'.map Utf16.ofText) = .ok a) : T = T' := by
  obtain ⟨-, hs, rfl⟩ := contentAAD_ok.1 h
  obtain ⟨-, hs', e⟩ := contentAAD_ok.1 h'
  have he := contentAAD_inj hs' hs e
  simp only [Place.encode, Place.map, Utf16.encode_ofText, Place.mk.injEq, Utf16.utf8_injective.eq_iff] at he
  cases T
  cases T'
  simp_all

/-- The associated data determine the place, for fields of fewer than `2 ^ 16` bytes and, in the web client, for strings
that are texts; both clients build the same for every bound ID but the empty one, which the web client refuses. Under an
ideal cipher a ciphertext that either client sealed for a place opens in either client only under its key, at that place,
to what was sealed, with or without the v1 fallback; it does open in the web client, and in Go just when Go's checks
accept the key and the place. A v1 ciphertext opens in neither where v1 is not allowed. -/
theorem content_bound (h : A.Ideal 16) :
    (∀ T T' : Place Bytes, T.Short → T'.Short → Notecrypto.contentAAD T = Notecrypto.contentAAD T' → T = T') ∧
    (∀ (T T' : Place String) (a : Bytes), Crypto.contentAAD (T.map Utf16.ofText) = .ok a →
      Crypto.contentAAD (T'.map Utf16.ofText) = .ok a → T = T') ∧
    (∀ S : Place JsString, S.bound ≠ [] → S.encode.Short →
      Crypto.contentAAD S = .ok (Notecrypto.contentAAD S.encode)) ∧
    (∀ (key key' : Bytes) (T T' : Place Bytes) (v1 : Bool) (p p' c : Bytes), T.Short → T'.Short → Sealed A key T p c →
      Opened A key' T' v1 c p' → key' = key ∧ T' = T ∧ p' = p) ∧
    (∀ (key : Bytes) (S : Place JsString) (p c : Bytes), S.encode.Short → Sealed A key S.encode p c →
      ∀ (v1Label : JsString) (v1 : Bool), Crypto.openContent A key S v1Label c v1 = .ok (p, false)) ∧
    (∀ (key : Bytes) (T : Place Bytes) (p c : Bytes), Sealed A key T p c → ∀ (label : Bytes) (v1 : Bool),
      Notecrypto.openSealed A key T label c v1 = .ok (p, false) ↔ Notecrypto.Accepts key T) ∧
    (∀ (key container label : Bytes) (n : Nonce) (p key' : Bytes) (T' : Place Bytes) (p' : Bytes),
      ¬ Opened A key' T' false (Crypto.encryptWithKey A (A.hkdf key container label) n p none) p') := by
  refine ⟨fun T T' => contentAAD_inj, fun T T' a => ofText_contentAAD_inj, fun S hb hS => contentAAD_ok.2 ⟨hb, hS, rfl⟩,
    ?_, ?_, ?_, ?_⟩
  · intro key key' T T' v1 p p' c hT hT' hs ho
    obtain ⟨n, rfl⟩ := hs.form
    obtain h2 | ⟨-, label, h1⟩ := ho.form
    · exact v2Form_bound h hT hT' h2
    · exact absurd h1 (v2Form_not_opensV1 h)
  · intro key S p c hS hs v1Label v1
    have ha := hs.accepts hS
    obtain ⟨n, rfl⟩ := hs.form
    exact Crypto.openContent_v2 ha (opensV2_v2Form h)
  · intro key T p c hs label v1
    obtain ⟨n, rfl⟩ := hs.form
    exact ⟨fun ho => (Notecrypto.openSealed_ok ho).1, fun ha => Notecrypto.openSealed_v2 ha (opensV2_v2Form h)⟩
  · intro key container label n p key' T' p' ho
    obtain h2 | ⟨hv, -⟩ := ho.form
    · have hn : ¬ OpensV2 A key' T' (v1Form A key container label n p) p' := v1Form_not_opensV2 h
      exact hn h2
    · cases hv

/-! ## At a page and at a share link -/

def firstKey : Bytes := List.replicate 32 7

def firstNonce : Nonce := ⟨List.replicate 12 0, rfl⟩

def firstPage : Place String := ⟨"cnt_00000000000000000000000000", "obj_00000000000000000000000000", "object"⟩

def secondPage : Place String := { firstPage with bound := "obj_00000000000000000000000001" }

/-- A share link's label is sealed for the link. -/
def shareLabel : Place String := ⟨"cnt_00000000000000000000000000", "shl_00000000000000000000000000", "share-label"⟩

/-- The web client's string of a place. -/
def jsPlace (T : Place String) : Place JsString := T.map Utf16.ofText

theorem encode_jsPlace (T : Place String) : (jsPlace T).encode = T.map Utf16.utf8 := by
  simp [jsPlace, Place.encode, Place.map]

theorem accepts_jsPlace {T : Place String} (hb : (jsPlace T).bound ≠ []) (hs : (T.map Utf16.utf8).Short) :
    Crypto.Accepts firstKey (jsPlace T) :=
  ⟨rfl, hb, (encode_jsPlace T).symm ▸ hs⟩

/-- The web client's page, in Go: it opens as the page, and at no other place. -/
theorem content_bound_page :
    Notecrypto.openSealed (Aead.transparent 0 1 16) firstKey (firstPage.map Utf16.utf8) []
      (v2Form (Aead.transparent 0 1 16) firstKey (firstPage.map Utf16.utf8) firstNonce [42]) true = .ok ([42], false) ∧
    ¬ ∃ p, Opened (Aead.transparent 0 1 16) firstKey (secondPage.map Utf16.utf8) true
      (v2Form (Aead.transparent 0 1 16) firstKey (firstPage.map Utf16.utf8) firstNonce [42]) p := by
  have hA : (Aead.transparent (0 : UInt8) 1 16).Ideal 16 := Aead.ideal_transparent 16 (by decide)
  have hshort : (firstPage.map Utf16.utf8).Short := by decide +kernel
  have hsealed := Sealed.web (A := Aead.transparent 0 1 16) (p := [42]) (jsPlace firstPage) firstNonce (encode_jsPlace _)
    (Crypto.sealContent_ok.2 ⟨accepts_jsPlace (by decide +kernel) hshort, congrArg (v2Form _ _ · _ _) (encode_jsPlace _)⟩)
  refine ⟨((content_bound hA).2.2.2.2.2.1 _ _ _ _ hsealed _ _).2 ⟨rfl, by decide +kernel, by decide +kernel⟩, ?_⟩
  rintro ⟨p, hp⟩
  obtain ⟨-, he, -⟩ := (content_bound hA).2.2.2.1 _ _ _ _ _ _ _ _ hshort (by decide +kernel) hsealed hp
  exact absurd he (by decide +kernel)

/-- The web client builds no data for the empty bound ID, where Go does; it builds the same for two strings of which one
has a lone surrogate; and Go refuses the label of a share link that the web client seals. -/
theorem shareLabel_refused :
    (¬ ∃ a, Crypto.contentAAD (jsPlace { firstPage with bound := "" }) = .ok a) ∧
    (∃ a, Crypto.contentAAD { jsPlace firstPage with bound := [0xd800] } = .ok a ∧
      Crypto.contentAAD { jsPlace firstPage with bound := [0xfffd] } = .ok a) ∧
    ∃ c, Crypto.sealContent (Aead.transparent 0 1 16) firstKey (jsPlace shareLabel) firstNonce [42] = .ok c ∧
      ¬ ∃ r, Notecrypto.openSealed (Aead.transparent 0 1 16) firstKey (shareLabel.map Utf16.utf8) [] c true = .ok r := by
  refine ⟨?_, ⟨_, contentAAD_ok.2 ⟨by decide, by decide +kernel, rfl⟩, contentAAD_ok.2 ⟨by decide, by decide +kernel, ?_⟩⟩, _,
    Crypto.sealContent_ok.2 ⟨accepts_jsPlace (by decide +kernel) (by decide +kernel), rfl⟩, ?_⟩
  · rintro ⟨a, ha⟩
    exact (contentAAD_ok.1 ha).1 rfl
  · decide +kernel
  · rintro ⟨r, hr⟩
    have hb := (Notecrypto.openSealed_ok hr).1.2.2
    exact absurd hb (by decide +kernel)

end KyNotes.Content
