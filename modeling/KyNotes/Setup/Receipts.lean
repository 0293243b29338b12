import KyNotes.Setup.ImportClient

/-!
# What a receipt pins

`canonical_injective`: two frames with one canonical text are one frame. `receipt_inj`: a receipt has the digest of one
canonical text. `matchFrame_ok`: the credential files of a frame have paths of their own, and short values.
-/

namespace KyNotes.Setup

open Check Cleanup.Stored

/-! ## JSON that is read back -/

theorem jsonText_eq (s : String) : jsonText s = jsonString (value s) := by
  rw [jsonText, jsonString, value, Utf8.runes_encode, List.map_map]
  rfl

theorem jsonText_injective : Function.Injective jsonText := by
  intro s s' h
  have hread : goString (jsonText s) = goString (jsonText s') := congrArg goString h
  simp only [jsonText_eq, goString_jsonString, value, Utf8.text_encode] at hread
  exact String.toList_inj.mp hread

/-- A tree that `json.Marshal` writes. -/
def Written (t : JsonText.Tree) : Prop := t.Printable ∧ AreChars t.print

theorem marshal_injective {t t' : JsonText.Tree} (ht : Written t) (ht' : Written t') (h : marshal t = marshal t') : t = t' := by
  have hcodes : ∀ {t : JsonText.Tree}, Written t → (Utf8.text (marshal t)).map Char.toNat = t.print := by
    intro t ht
    rw [marshal, Utf8.text_encode, List.map_map]
    exact (List.map_congr_left fun n hn => ht.2 n hn).trans (List.map_id _)
  have hprint : t.print = t'.print := by rw [← hcodes ht, h, hcodes ht']
  have hread := @JsonText.parse_print t ht.1 [] fun _ hc => absurd hc List.not_mem_nil
  rw [hprint, JsonText.parse_print ht'.1 fun _ hc => absurd hc List.not_mem_nil] at hread
  exact (Option.some.inj hread).symm

theorem areChars_one {n : ℕ} (h : n < 128) : AreChars [n] := AreChars.ascii (List.forall_mem_singleton.mpr h)

theorem areChars_cons {n : ℕ} {ns : List ℕ} (h : n < 128) (hns : AreChars ns) : AreChars (n :: ns) :=
  (areChars_one h).append hns

theorem written_str (s : String) : Written (.str (jsonText s)) := by
  rw [jsonText_eq]
  exact ⟨jsonString_printable _, areChars_quote _⟩

theorem written_arr {ts : List JsonText.Tree} (h : ∀ t ∈ ts, Written t) : Written (.arr ts) := by
  have hvalues : ∀ ts : List JsonText.Tree, (∀ t ∈ ts, Written t) →
      JsonText.PrintableValues ts ∧ AreChars (JsonText.printValues ts) := by
    intro ts
    induction ts with
    | nil => exact fun _ => ⟨trivial, nofun⟩
    | cons t ts ih =>
      intro h
      rw [List.forall_mem_cons] at h
      obtain ⟨hp, hc⟩ := ih h.2
      exact ⟨⟨h.1.1, hp⟩, areChars_cons (by decide) (h.1.2.append hc)⟩
  cases ts with
  | nil => exact ⟨trivial, AreChars.ascii (by decide)⟩
  | cons t ts =>
    rw [List.forall_mem_cons] at h
    obtain ⟨hp, hc⟩ := hvalues ts h.2
    exact ⟨⟨h.1.1, hp⟩, areChars_cons (by decide) (h.1.2.append (hc.append (areChars_one (by decide))))⟩

theorem written_obj {ms : List (List JsonText.Item × JsonText.Tree)} (h : ∀ m ∈ ms, Written (.str m.1) ∧ Written m.2) :
    Written (.obj ms) := by
  have hmembers : ∀ ms : List (List JsonText.Item × JsonText.Tree), (∀ m ∈ ms, Written (.str m.1) ∧ Written m.2) →
      JsonText.PrintableMembers ms ∧ AreChars (JsonText.printMembers ms) := by
    intro ms
    induction ms with
    | nil => exact fun _ => ⟨trivial, nofun⟩
    | cons m ms ih =>
      intro h
      rw [List.forall_mem_cons] at h
      obtain ⟨⟨⟨hk, hq⟩, hv, hc⟩, hrest⟩ := h
      obtain ⟨hp, hcs⟩ := ih hrest
      exact ⟨⟨hk, hv, hp⟩, areChars_cons (by decide) (hq.append (areChars_cons (by decide) (hc.append hcs)))⟩
  cases ms with
  | nil => exact ⟨trivial, AreChars.ascii (by decide)⟩
  | cons m ms =>
    rw [List.forall_mem_cons] at h
    obtain ⟨⟨⟨hk, hq⟩, hv, hc⟩, hrest⟩ := h
    obtain ⟨hp, hcs⟩ := hmembers ms hrest
    exact ⟨⟨hk, hv, hp⟩,
      areChars_cons (by decide) (hq.append (areChars_cons (by decide) (hc.append (hcs.append (areChars_one (by decide))))))⟩

/-! ## Frames -/

theorem member_ok (key value : String) : Written (.str (member key value).1) ∧ Written (member key value).2 :=
  ⟨written_str key, written_str value⟩

theorem optional_ok (key value : String) : ∀ m ∈ optional key value, Written (.str m.1) ∧ Written m.2 := by
  unfold optional
  split
  · exact nofun
  · exact List.forall_mem_singleton.mpr (member_ok key value)

theorem administrator_written (a : Administrator) : Written a.tree :=
  written_obj (by simp only [List.forall_mem_cons, member_ok, true_and]; exact nofun)

theorem tree_written (frame : ClientCredentials) : Written frame.tree := by
  refine written_obj ?_
  have huris : Written (.arr (frame.redirectURIs.map fun uri => .str (jsonText uri))) :=
    written_arr (List.forall_mem_map.mpr fun uri _ => written_str uri)
  simp only [List.forall_mem_cons, List.forall_mem_append, member_ok, true_and]
  exact ⟨⟨written_str _, huris⟩, optional_ok _ _, optional_ok _ _, ⟨written_str _, administrator_written _⟩, nofun⟩

/-- A member is left out or it is not; what comes after it has another key. -/
theorem optional_inj {key v v' : String} {m m' : List JsonText.Item × JsonText.Tree}
    {rest rest' : List (List JsonText.Item × JsonText.Tree)} (hm : m.1 ≠ jsonText key) (hm' : m'.1 ≠ jsonText key)
    (h : optional key v ++ m :: rest = optional key v' ++ m' :: rest') : v = v' ∧ m = m' ∧ rest = rest' := by
  unfold optional at h
  split at h <;> split at h
  · next hv hv' =>
    cases h
    exact ⟨hv.trans hv'.symm, rfl, rfl⟩
  · cases h
    exact absurd rfl hm
  · cases h
    exact absurd rfl hm'
  · simp only [List.singleton_append, List.cons.injEq, member, Prod.mk.injEq, true_and, JsonText.Tree.str.injEq] at h
    exact ⟨jsonText_injective h.1, h.2.1, h.2.2⟩

theorem member_inj {key v v' : String} : member key v = member key v' ↔ v = v' := by
  simp only [member, Prod.mk.injEq, true_and, JsonText.Tree.str.injEq]
  exact jsonText_injective.eq_iff

theorem tree_injective : Function.Injective ClientCredentials.tree := by
  intro f g h
  have hkey : ∀ {k k' : String}, k ≠ k' → jsonText k ≠ jsonText k' := fun hne => jsonText_injective.ne hne
  have huri : Function.Injective fun uri : String => JsonText.Tree.str (jsonText uri) :=
    fun _ _ h => jsonText_injective (JsonText.Tree.str.inj h)
  simp only [ClientCredentials.tree, JsonText.Tree.obj.injEq, List.cons.injEq, member_inj, Prod.mk.injEq, true_and,
    JsonText.Tree.arr.injEq] at h
  obtain ⟨hschema, hid, hissuer, hclient, huris, h⟩ := h
  obtain ⟨hdirectory, hsecret, h⟩ := optional_inj (hkey (by decide)) (hkey (by decide)) h
  obtain ⟨hmac, hadmin, -⟩ := optional_inj (hkey (by decide)) (hkey (by decide)) h
  simp only [Administrator.tree, JsonText.Tree.obj.injEq, List.cons.injEq, member_inj, Prod.mk.injEq, true_and, and_true] at hadmin
  obtain ⟨hsubject, husername, hrole⟩ := hadmin
  have hsecret := member_inj.mp hsecret
  have huris := List.map_injective_iff.mpr huri huris
  obtain ⟨schema, id, issuer, client, uris, directory, secret, mac, ⟨subject, username, role⟩⟩ := f
  obtain ⟨schema', id', issuer', client', uris', directory', secret', mac', ⟨subject', username', role'⟩⟩ := g
  subst_vars
  rfl

theorem canonical_injective : Function.Injective Prepared.canonical := fun f g h =>
  tree_injective (marshal_injective (tree_written f) (tree_written g) h)

/-! ## Receipts -/

/-- The two digits of a byte. -/
def hexPair (b : UInt8) : List Char :=
  [Char.ofNat (JsonText.hexDigit (b.toNat / 16)), Char.ofNat (JsonText.hexDigit (b.toNat % 16))]

theorem hexPair_injective : Function.Injective hexPair := by
  intro b b' h
  have hdigit : ∀ {m n : ℕ}, m < 16 → n < 16 → Char.ofNat (JsonText.hexDigit m) = Char.ofNat (JsonText.hexDigit n) → m = n := by
    intro m n hm hn heq
    have hcode := congrArg Char.toNat heq
    rw [toNat_ofNat (.inl (Nat.lt_trans (JsonText.hexDigit_lt hm) (by decide))),
      toNat_ofNat (.inl (Nat.lt_trans (JsonText.hexDigit_lt hn) (by decide)))] at hcode
    have hvalue := congrArg JsonText.hexValue hcode
    rw [JsonText.hexValue_hexDigit hm, JsonText.hexValue_hexDigit hn] at hvalue
    exact Option.some.inj hvalue
  have hb := b.toNat_lt
  have hb' := b'.toNat_lt
  simp only [hexPair, List.cons.injEq, and_true] at h
  have hhigh := hdigit (by omega) (by omega) h.1
  have hlow := hdigit (by omega) (by omega) h.2
  exact UInt8.toNat_inj.mp (by omega)

theorem flatMap_hexPair_injective : Function.Injective fun bytes : Bytes => bytes.flatMap hexPair
  | [], [], _ => rfl
  | [], _ :: _, h => by simp [hexPair] at h
  | _ :: _, [], h => by simp [hexPair] at h
  | b :: bs, b' :: bs', h => by
    have happend : hexPair b ++ bs.flatMap hexPair = hexPair b' ++ bs'.flatMap hexPair := h
    obtain ⟨hpair, hrest⟩ := List.append_inj happend rfl
    rw [hexPair_injective hpair, flatMap_hexPair_injective hrest]

theorem hexString_injective : Function.Injective hexString := fun _ _ h =>
  flatMap_hexPair_injective (String.ofList_injective h)

theorem receiptTree_written (a b : Sum256) : Written (receiptTree a b) :=
  written_obj (by simp only [List.forall_mem_cons, member_ok, true_and]; exact nofun)

theorem sum256_ext : ∀ {x y : Sum256}, x.bytes = y.bytes → x = y
  | ⟨_, _⟩, ⟨_, _⟩, rfl => rfl

theorem receipt_inj {P : Prepared} {frame frame' : ClientCredentials} (h : P.receipt frame = P.receipt frame') :
    P.sha256 (Prepared.canonical frame) = P.sha256 (Prepared.canonical frame') := by
  have htree := marshal_injective (receiptTree_written _ _) (receiptTree_written _ _) h
  simp only [receiptTree, JsonText.Tree.obj.injEq, List.cons.injEq, member_inj, true_and, and_true] at htree
  have hbytes := hexString_injective htree
  exact sum256_ext hbytes

/-! ## Lengths -/

theorem length_marshal_le (t : JsonText.Tree) : (marshal t).length ≤ 4 * t.print.length := by
  have hencode : ∀ cs : List Char, (Utf8.encode cs).length ≤ 4 * cs.length := by
    intro cs
    induction cs with
    | nil => exact Nat.le_refl _
    | cons c cs ih =>
      have hc := c.utf8Size_le_four
      have hcons : Utf8.encode (c :: cs) = String.utf8EncodeChar c ++ Utf8.encode cs := rfl
      rw [hcons, List.length_append, String.length_utf8EncodeChar, List.length_cons]
      omega
  exact (hencode _).trans (by rw [List.length_map])

theorem length_quote_le (s : String) : (JsonText.quote (jsonText s)).length ≤ 6 * s.toList.length + 2 := by
  have hitem : ∀ i : JsonText.Item, i.print.length ≤ 6 := by
    intro i
    cases i with
    | unit u => exact Nat.le_refl _
    | char c =>
      rw [JsonText.Item.print]
      split
      · exact Nat.le_of_ble_eq_true rfl
      · exact Nat.le_of_ble_eq_true rfl
  have hitems : ∀ items : List JsonText.Item, (items.flatMap JsonText.Item.print).length ≤ 6 * items.length := by
    intro items
    induction items with
    | nil => exact Nat.le_refl _
    | cons i items ih =>
      have hi := hitem i
      rw [List.flatMap_cons, List.length_append, List.length_cons]
      omega
  have h := hitems (jsonText s)
  simp only [JsonText.quote, List.length_cons, List.length_append, List.length_nil]
  rw [show (jsonText s).length = s.toList.length from List.length_map _] at h
  omega

theorem length_hexString (x : Sum256) : (hexString x.bytes).toList.length = 64 := by
  have hpairs : ∀ bytes : Bytes, (bytes.flatMap hexPair).length = 2 * bytes.length := by
    intro bytes
    induction bytes with
    | nil => rfl
    | cons b bytes ih =>
      rw [List.flatMap_cons, List.length_append, List.length_cons, ih]
      exact Nat.add_comm _ _
  rw [hexString, String.toList_ofList]
  exact (hpairs x.bytes).trans (by rw [x.length_eq])

theorem length_receipt_le (P : Prepared) (frame : ClientCredentials) : (P.receipt frame).length ≤ maxBundleBytes := by
  refine (length_marshal_le _).trans ?_
  have hclient := length_quote_le (hexString (P.sha256 (Prepared.canonical frame)).bytes)
  have hbundle := length_quote_le (hexString (P.sha256 P.metadata).bytes)
  rw [length_hexString] at hclient hbundle
  have hschema := length_quote_le "kynotes.client-import/1"
  have h₁ := length_quote_le "schema"
  have h₂ := length_quote_le "clientDigest"
  have h₃ := length_quote_le "bundleDigest"
  simp only [receiptTree, member, JsonText.Tree.print, JsonText.printMembers, List.length_cons, List.length_append,
    List.length_nil, maxBundleBytes]
  simp only [String.reduceToList, List.length_cons, List.length_nil] at hschema h₁ h₂ h₃
  omega

theorem length_toDigits_le : ∀ bytes : Bytes, (Base64.toDigits bytes).length ≤ 2 * bytes.length
  | [] => Nat.le_refl _
  | [_] => Nat.le_refl _
  | [_, _] => Nat.le_of_ble_eq_true rfl
  | _ :: _ :: _ :: rest => by
    have h := length_toDigits_le rest
    simp only [Base64.toDigits, List.length_cons]
    omega

/-- A credential is short. -/
theorem length_value_le {s : String} (h : importSecret s = true) : (value s).length ≤ maxBundleBytes := by
  simp only [importSecret] at h
  split at h
  · next raw _ =>
    obtain ⟨hraw, hunits⟩ : raw.length = 32 ∧ rawURLEncode raw = (value s).map UInt8.toUInt16 := of_decide_eq_true h
    have hlength := congrArg List.length hunits
    rw [rawURLEncode, List.length_map, List.length_map] at hlength
    have hdigits := length_toDigits_le raw
    rw [← hlength, maxBundleBytes]
    omega
  · cases h

/-! ## The credential files -/

theorem join_injective (P : Prepared) : Function.Injective P.join := fun _ _ h =>
  (String.append_right_inj _).mp h

/-- The credential files have paths of their own and short values. -/
theorem matchFrame_ok {P : Prepared} {frame : ClientCredentials} {files : List (String × Bytes)}
    (h : P.matchFrame frame = .ok files) :
    (files.map Prod.fst).Nodup ∧ P.receiptFile ∉ files.map Prod.fst ∧ ∀ f ∈ files, f.2.length ≤ maxBundleBytes := by
  have hne : ∀ {name name' : String}, name ≠ name' → P.join name ≠ P.join name' := fun h => (join_injective P).ne h
  unfold Prepared.matchFrame at h
  split at h
  · next s owner _ =>
    simp only [bind_ok, require_ok] at h
    obtain ⟨-, -, -, -, callback, -, -, ⟨-, hsecret⟩, -, hfile, h⟩ := h
    split at h
    · simp only [bind_ok, fetch_ok, require_ok, pure_ok] at h
      obtain ⟨u, -, -, ⟨hdirectory, -, hmac⟩, rfl⟩ := h
      rw [hfile, hdirectory]
      refine ⟨List.nodup_cons.mpr ⟨fun h => hne (by decide) (List.mem_singleton.mp h), List.nodup_singleton _⟩, ?_, ?_⟩
      · simp only [List.map_cons, List.map_nil, List.mem_cons, List.not_mem_nil, or_false, not_or]
        exact ⟨hne (by decide), hne (by decide)⟩
      · exact List.forall_mem_cons.mpr ⟨length_value_le hsecret, List.forall_mem_singleton.mpr (length_value_le hmac)⟩
    · simp only [bind_ok, require_ok, pure_ok] at h
      obtain ⟨-, -, rfl⟩ := h
      rw [hfile]
      refine ⟨List.nodup_singleton _, ?_, List.forall_mem_singleton.mpr (length_value_le hsecret)⟩
      simp only [List.map_cons, List.map_nil, List.mem_cons, List.not_mem_nil, or_false]
      exact hne (by decide)
  · cases h

end KyNotes.Setup
