import KyNotes.Lib.Digits
import KyNotes.Lib.Split
import KyNotes.Web.Linking

/-!
# Recovery codes

`formatRecoveryCode` and `parseRecoveryCode` of `web/src/recovery.ts`: 16 secret bytes and ten checksum bits as 28 Crockford
symbols of five bits, in seven groups. `sha256`, the normalization and the upper case of the host are parameters.

* `parse_format`: the code of a secret parses to it;
* `format_parse`: an accepted input, folded, is the code of the secret that it parses to;
* `recovery_codes`: both, with the fold written out for ASCII.
-/

namespace KyNotes.Web

def SECRET_BYTES : ℕ := 16

def SYMBOLS : ℕ := 28

/-- Crockford's 32 symbols. -/
def ALPHABET : JsString := "0123456789ABCDEFGHJKMNPQRSTVWXYZ".toList.map fun c => UInt16.ofNat c.toNat

def codeLabel : Bytes := "kynotes/recovery-code/v1".toList.map fun c => UInt8.ofNat c.toNat

section Code

variable (sha256 : Bytes → Bytes)

/-- The first ten bits of the hash. -/
def checksum (secret : Bytes) : ℕ :=
  let sum := sha256 (codeLabel ++ secret)
  ((sum.getD 0 0).toNat <<< 2) ||| ((sum.getD 1 0).toNat >>> 6)

/-- The loop that takes symbols from the low end of the value. -/
def takeSymbols : ℕ → ℕ → JsString → JsString
  | 0, _, symbols => symbols
  | n + 1, v, symbols => takeSymbols n (v >>> 5) (ALPHABET.getD (v &&& 31) 0 :: symbols)

def formatRecoveryCode (secret : Bytes) : Option JsString :=
  if secret.length ≠ SECRET_BYTES then none
  else
    let v := (secret.foldl (fun acc byte => (acc <<< 8) ||| byte.toNat) 0 <<< 10) ||| checksum sha256 secret
    some ([45].intercalate (Split.parts 4 (takeSymbols SYMBOLS v [])))

variable (nfkc toUpperCase : JsString → JsString)

/-- `.replace(/[\s-]/g, "").replace(/[IL]/g, "1").replace(/O/g, "0")`. -/
def foldSymbols (s : JsString) : JsString :=
  (s.filter fun c => !(isSpace c || c == 45)).map fun c => if c = 73 ∨ c = 76 then 49 else if c = 79 then 48 else c

/-- The loop over the symbols; a character of two code units is no symbol, and neither are its units. -/
def readSymbols : JsString → ℕ → Option ℕ
  | [], v => some v
  | symbol :: symbols, v =>
    match ALPHABET.idxOf? symbol with
    | none => none
    | some digit => readSymbols symbols ((v <<< 5) ||| digit)

/-- The loop that fills the secret from its end. -/
def fillSecret : ℕ → ℕ → Bytes → Bytes
  | 0, _, secret => secret
  | n + 1, body, secret => fillSecret n (body >>> 8) (UInt8.ofNat (body &&& 255) :: secret)

/-- Nothing where it throws. -/
def parseRecoveryCode (input : JsString) : Option Bytes :=
  let symbols := foldSymbols (toUpperCase (nfkc input))
  if symbols.length ≠ SYMBOLS then none
  else do
    let v ← readSymbols symbols 0
    if v >>> 138 ≠ 0 then none
    else
      let secret := fillSecret SECRET_BYTES (v >>> 10) []
      if checksum sha256 secret ≠ v &&& 1023 then none else some secret

end Code

/-! ## Symbols and digits -/

/-- The symbol of a digit. -/
def symbol (d : ℕ) : UInt16 := ALPHABET.getD d 0

/-- What every symbol is: its own reading, plain ASCII in upper case, no letter that is read as a digit. -/
theorem symbol_plain {d : ℕ} (hd : d < 32) : ALPHABET.idxOf? (symbol d) = some d ∧ symbol d < 128 ∧
    isSpace (symbol d) = false ∧ symbol d ≠ 45 ∧ symbol d ≠ 73 ∧ symbol d ≠ 76 ∧ symbol d ≠ 79 ∧
    ¬(97 ≤ symbol d ∧ symbol d ≤ 122) := by
  have hall : ∀ d : Fin 32, ALPHABET.idxOf? (symbol d) = some d.val ∧ symbol d < 128 ∧
      isSpace (symbol d) = false ∧ symbol d ≠ 45 ∧ symbol d ≠ 73 ∧ symbol d ≠ 76 ∧ symbol d ≠ 79 ∧
      ¬(97 ≤ symbol d ∧ symbol d ≤ 122) := by decide
  exact hall ⟨d, hd⟩

theorem symbol_of_idxOf {c : UInt16} {d : ℕ} (h : ALPHABET.idxOf? c = some d) : d < 32 ∧ symbol d = c := by
  obtain ⟨hlt, heq, -⟩ := List.findIdx?_eq_some_iff_getElem.mp h
  refine ⟨hlt, ?_⟩
  unfold symbol
  rw [List.getD_eq_getElem?_getD, List.getElem?_eq_getElem hlt, Option.getD_some]
  exact eq_of_beq heq

theorem takeSymbols_eq : ∀ (n v : ℕ) (symbols : JsString),
    takeSymbols n v symbols = (Digits.digits 32 n v).map symbol ++ symbols
  | 0, _, _ => rfl
  | n + 1, v, symbols => by
    have hand : v &&& 31 = v % 32 := Nat.and_two_pow_sub_one_eq_mod v 5
    rw [takeSymbols, takeSymbols_eq n, Digits.digits, List.map_append, List.append_assoc, hand,
      Nat.shiftRight_eq_div_pow]
    rfl

theorem fillSecret_eq : ∀ (n v : ℕ) (secret : Bytes),
    fillSecret n v secret = (Digits.digits 256 n v).map UInt8.ofNat ++ secret
  | 0, _, _ => rfl
  | n + 1, v, secret => by
    have hand : v &&& 255 = v % 256 := Nat.and_two_pow_sub_one_eq_mod v 8
    rw [fillSecret, fillSecret_eq n, Digits.digits, List.map_append, List.append_assoc, hand,
      Nat.shiftRight_eq_div_pow]
    rfl

theorem readSymbols_map {ds : List ℕ} (h : ∀ d ∈ ds, d < 32) (v : ℕ) :
    readSymbols (ds.map symbol) v = some (ds.foldl (fun v d => v * 32 + d) v) := by
  induction ds generalizing v with
  | nil => rfl
  | cons d ds ih =>
    have hor : (v <<< 5) ||| d = v * 32 + d := by
      rw [← Nat.shiftLeft_add_eq_or_of_lt (h d List.mem_cons_self), Nat.shiftLeft_eq]
    rw [List.map_cons, readSymbols, (symbol_plain (h d List.mem_cons_self)).1]
    dsimp only
    rw [hor]
    exact ih (fun e he => h e (List.mem_cons_of_mem d he)) _

/-- What is read are the symbols of digits. -/
theorem readSymbols_ok {s : JsString} {v r : ℕ} (h : readSymbols s v = some r) :
    ∃ ds : List ℕ, (∀ d ∈ ds, d < 32) ∧ s = ds.map symbol := by
  induction s generalizing v with
  | nil => exact ⟨[], nofun, rfl⟩
  | cons c s ih =>
    rw [readSymbols] at h
    split at h
    · cases h
    · rename_i d hd
      obtain ⟨hlt, hsym⟩ := symbol_of_idxOf hd
      obtain ⟨ds, hds, rfl⟩ := ih h
      exact ⟨d :: ds, List.forall_mem_cons.mpr ⟨hlt, hds⟩, by rw [List.map_cons, hsym]⟩

/-! ## Dashes, spaces and case -/

/-- Dashes between the groups and back out. -/
theorem filter_intercalate : ∀ ps : List JsString, ([45].intercalate ps).filter (· ≠ 45) = ps.flatten.filter (· ≠ 45)
  | [] => rfl
  | [p] => by simp [List.intercalate]
  | p :: q :: ps => by
    have ih := filter_intercalate (q :: ps)
    simp only [List.intercalate, List.intersperse_cons_cons, List.flatten_cons, List.filter_append] at ih ⊢
    rw [ih]
    rfl

/-- `toUpperCase` of an ASCII code unit. -/
def asciiUpper (c : UInt16) : UInt16 := if 97 ≤ c ∧ c ≤ 122 then c - 32 else c

/-- The upper case of ASCII. -/
def UpperAscii (toUpperCase : JsString → JsString) : Prop :=
  ∀ text : JsString, (∀ c ∈ text, c < 128) → toUpperCase text = text.map asciiUpper

/-- An ASCII input as it is compared: no space and no dash, in upper case, I and L as 1, O as 0. -/
def canonicalCode (input : JsString) : JsString :=
  ((input.filter fun c => !(isSpace c || c == 45)).map asciiUpper).map fun c =>
    if c = 73 ∨ c = 76 then 49 else if c = 79 then 48 else c

/-! ## The value of a code -/

variable {sha256 : Bytes → Bytes} {nfkc toUpperCase : JsString → JsString}

theorem checksum_lt (sha256 : Bytes → Bytes) (secret : Bytes) : checksum sha256 secret < 2 ^ 10 := by
  have hbyte : ∀ b : UInt8, b.toNat < 256 := UInt8.toNat_lt
  unfold checksum
  refine Nat.or_lt_two_pow ?_ ?_
  · rw [Nat.shiftLeft_eq]
    have := hbyte ((sha256 (codeLabel ++ secret)).getD 0 0)
    omega
  · rw [Nat.shiftRight_eq_div_pow]
    have := hbyte ((sha256 (codeLabel ++ secret)).getD 1 0)
    omega

/-- The 138 bits of a code: the secret and its checksum. -/
def codeValue (sha256 : Bytes → Bytes) (secret : Bytes) : ℕ :=
  Digits.value 256 (secret.map UInt8.toNat) * 2 ^ 10 + checksum sha256 secret

theorem value_secret_lt {secret : Bytes} (h : secret.length = SECRET_BYTES) :
    Digits.value 256 (secret.map UInt8.toNat) < 2 ^ 128 := by
  have hlt : ∀ d ∈ secret.map UInt8.toNat, d < 256 := by
    intro d hd
    obtain ⟨b, -, rfl⟩ := List.mem_map.mp hd
    exact UInt8.toNat_lt b
  have := Digits.value_lt hlt
  rw [List.length_map, h] at this
  exact this

theorem codeValue_lt (sha256 : Bytes → Bytes) {secret : Bytes} (h : secret.length = SECRET_BYTES) : codeValue sha256 secret < 2 ^ 138 := by
  have h₁ := value_secret_lt h
  have h₂ := checksum_lt sha256 secret
  unfold codeValue
  omega

/-- The symbols of a code, without its dashes. -/
def codeSymbols (v : ℕ) : JsString := (Digits.digits 32 SYMBOLS v).map symbol

theorem format_eq {secret : Bytes} (h : secret.length = SECRET_BYTES) : formatRecoveryCode sha256 secret =
    some ([45].intercalate (Split.parts 4 (codeSymbols (codeValue sha256 secret)))) := by
  have hvalue : ((secret.foldl (fun acc byte => (acc <<< 8) ||| byte.toNat) 0 <<< 10) ||| checksum sha256 secret) =
      codeValue sha256 secret := by
    rw [← Nat.shiftLeft_add_eq_or_of_lt (checksum_lt sha256 secret), Nat.shiftLeft_eq]
    have hstep : (fun (acc : ℕ) (byte : UInt8) => (acc <<< 8) ||| byte.toNat) = fun acc byte => acc * 256 + byte.toNat := by
      funext acc byte
      rw [← Nat.shiftLeft_add_eq_or_of_lt (UInt8.toNat_lt byte), Nat.shiftLeft_eq]
    unfold codeValue Digits.value
    rw [hstep, List.foldl_map]
  unfold formatRecoveryCode
  rw [if_neg (fun hn => hn h)]
  dsimp only
  rw [hvalue, takeSymbols_eq, List.append_nil]
  rfl

theorem mem_codeSymbols {v : ℕ} {c : UInt16} (h : c ∈ codeSymbols v) : ∃ d < 32, c = symbol d := by
  obtain ⟨d, hd, rfl⟩ := List.mem_map.mp h
  exact ⟨d, Digits.digits_lt (by decide) hd, rfl⟩

/-- The code without its dashes. -/
theorem undash_code (v : ℕ) : ([45].intercalate (Split.parts 4 (codeSymbols v))).filter (· ≠ 45) = codeSymbols v := by
  rw [filter_intercalate, Split.flatten_parts (by decide)]
  refine List.filter_eq_self.mpr fun c hc => ?_
  obtain ⟨d, hd, rfl⟩ := mem_codeSymbols hc
  exact decide_eq_true (symbol_plain hd).2.2.2.1

/-- The secret of a value. -/
theorem secret_of_value {secret : Bytes} (h : secret.length = SECRET_BYTES) :
    fillSecret SECRET_BYTES (codeValue sha256 secret >>> 10) [] = secret := by
  have hc := checksum_lt sha256 secret
  have hshift : codeValue sha256 secret >>> 10 = Digits.value 256 (secret.map UInt8.toNat) := by
    unfold codeValue
    rw [Nat.shiftRight_eq_div_pow]
    omega
  have hlt : ∀ d ∈ secret.map UInt8.toNat, d < 256 := by
    intro d hd
    obtain ⟨b, -, rfl⟩ := List.mem_map.mp hd
    exact UInt8.toNat_lt b
  have hdigits := Digits.digits_value hlt
  rw [List.length_map, h] at hdigits
  rw [fillSecret_eq, hshift, hdigits, List.append_nil, List.map_map]
  simp [Function.comp_def]

/-! ## Round trips -/

/-- What the parser makes of the folded symbols of a code. -/
theorem read_code {secret : Bytes} (h : secret.length = SECRET_BYTES) :
    readSymbols (codeSymbols (codeValue sha256 secret)) 0 = some (codeValue sha256 secret) := by
  have hlt := codeValue_lt sha256 h
  have hread := readSymbols_map (fun d hd => Digits.digits_lt (n := SYMBOLS) (v := codeValue sha256 secret) (by decide) hd) 0
  unfold codeSymbols
  rw [hread]
  have hv := Digits.value_digits (b := 32) SYMBOLS (codeValue sha256 secret)
  rw [Nat.mod_eq_of_lt (by unfold SYMBOLS; omega)] at hv
  exact congrArg some hv

/-- The characters of a code. -/
theorem mem_code {v : ℕ} {c : UInt16} (h : c ∈ [45].intercalate (Split.parts 4 (codeSymbols v))) :
    c = 45 ∨ ∃ d < 32, c = symbol d := by
  by_cases hc : c = 45
  · exact Or.inl hc
  · have hm : c ∈ ([45].intercalate (Split.parts 4 (codeSymbols v))).filter (· ≠ 45) :=
      List.mem_filter.mpr ⟨h, decide_eq_true hc⟩
    rw [undash_code] at hm
    exact Or.inr (mem_codeSymbols hm)

/-- A code is folded to its symbols. -/
theorem foldSymbols_code (v : ℕ) :
    foldSymbols ([45].intercalate (Split.parts 4 (codeSymbols v))) = codeSymbols v := by
  have hfilter : ([45].intercalate (Split.parts 4 (codeSymbols v))).filter (fun c => !(isSpace c || c == 45)) =
      ([45].intercalate (Split.parts 4 (codeSymbols v))).filter (· ≠ 45) := by
    refine List.filter_congr fun c hc => ?_
    rcases mem_code hc with rfl | ⟨d, hd, rfl⟩
    · rfl
    · rw [(symbol_plain hd).2.2.1, Bool.false_or]
      simp [(symbol_plain hd).2.2.2.1]
  unfold foldSymbols
  rw [hfilter, undash_code]
  have hid : ∀ c ∈ codeSymbols v, (if c = 73 ∨ c = 76 then 49 else if c = 79 then 48 else c) = id c := by
    intro c hc
    obtain ⟨d, hd, rfl⟩ := mem_codeSymbols hc
    obtain ⟨-, -, -, -, h₁, h₂, h₃, -⟩ := symbol_plain hd
    rw [if_neg (not_or.mpr ⟨h₁, h₂⟩), if_neg h₃, id]
  rw [List.map_congr_left hid, List.map_id]

/-- A code is plain ASCII in upper case. -/
theorem host_code (hn : AsciiFixed nfkc) (hu : UpperAscii toUpperCase) (v : ℕ) :
    toUpperCase (nfkc ([45].intercalate (Split.parts 4 (codeSymbols v)))) =
      [45].intercalate (Split.parts 4 (codeSymbols v)) := by
  have hascii : ∀ c ∈ [45].intercalate (Split.parts 4 (codeSymbols v)), c < 128 := by
    intro c hc
    rcases mem_code hc with rfl | ⟨d, hd, rfl⟩
    · decide
    · exact (symbol_plain hd).2.1
  have hid : ∀ c ∈ [45].intercalate (Split.parts 4 (codeSymbols v)), asciiUpper c = id c := by
    intro c hc
    rcases mem_code hc with rfl | ⟨d, hd, rfl⟩
    · rfl
    · unfold asciiUpper
      rw [if_neg (symbol_plain hd).2.2.2.2.2.2.2, id]
  rw [hn _ hascii, hu _ hascii, List.map_congr_left hid, List.map_id]

/-- The code of a secret parses to it. -/
theorem parse_format (hn : AsciiFixed nfkc) (hu : UpperAscii toUpperCase)
    {secret : Bytes} (h : secret.length = SECRET_BYTES) : parseRecoveryCode sha256 nfkc toUpperCase
      ([45].intercalate (Split.parts 4 (codeSymbols (codeValue sha256 secret)))) = some secret := by
  have hlt := codeValue_lt sha256 h
  have hc := checksum_lt sha256 secret
  have hlen : (codeSymbols (codeValue sha256 secret)).length = SYMBOLS := by
    rw [codeSymbols, List.length_map, Digits.length_digits]
  have hhigh : codeValue sha256 secret >>> 138 = 0 := by
    rw [Nat.shiftRight_eq_div_pow]
    exact Nat.div_eq_of_lt hlt
  have hlow : codeValue sha256 secret &&& 1023 = checksum sha256 secret := by
    rw [show codeValue sha256 secret &&& 1023 = codeValue sha256 secret % 2 ^ 10 from
      Nat.and_two_pow_sub_one_eq_mod _ 10]
    unfold codeValue
    omega
  unfold parseRecoveryCode
  dsimp only
  rw [host_code hn hu, foldSymbols_code, if_neg (fun hn => hn hlen), read_code h]
  simp only [Option.bind_eq_bind, Option.bind_some]
  rw [if_neg (fun hn => hn hhigh), secret_of_value h, hlow, if_neg (fun hn => hn rfl)]

/-- The symbols of an accepted input are those of the code of its secret. -/
theorem format_parse {input : JsString} {secret : Bytes}
    (h : parseRecoveryCode sha256 nfkc toUpperCase input = some secret) : secret.length = SECRET_BYTES ∧
      foldSymbols (toUpperCase (nfkc input)) = codeSymbols (codeValue sha256 secret) := by
  unfold parseRecoveryCode at h
  dsimp only at h
  generalize foldSymbols (toUpperCase (nfkc input)) = symbols at h ⊢
  split at h
  · cases h
  · rename_i hlen
    cases hr : readSymbols symbols 0 with
    | none =>
      rw [hr] at h
      cases h
    | some v =>
      rw [hr] at h
      simp only [Option.bind_eq_bind, Option.bind_some] at h
      obtain ⟨ds, hds, rfl⟩ := readSymbols_ok hr
      rw [List.length_map, ne_eq, Decidable.not_not] at hlen
      have hv : v = Digits.value 32 ds := by
        rw [readSymbols_map hds] at hr
        exact (Option.some.inj hr).symm
      split at h
      · cases h
      · rename_i hhigh
        rw [ne_eq, Decidable.not_not, Nat.shiftRight_eq_div_pow] at hhigh
        split at h
        · cases h
        · rename_i hsum
          rw [ne_eq, Decidable.not_not, show v &&& 1023 = v % 2 ^ 10 from Nat.and_two_pow_sub_one_eq_mod v 10] at hsum
          obtain rfl := Option.some.inj h
          -- the secret has the bits above the checksum, and no other bit is set
          have hsecret : Digits.value 256 ((fillSecret SECRET_BYTES (v >>> 10) []).map UInt8.toNat) = v >>> 10 := by
            rw [fillSecret_eq, List.append_nil, Digits.toNat_ofNat_digits, Digits.value_digits, Nat.mod_eq_of_lt]
            rw [Nat.shiftRight_eq_div_pow]
            unfold SECRET_BYTES
            omega
          have hvalue : codeValue sha256 (fillSecret SECRET_BYTES (v >>> 10) []) = v := by
            unfold codeValue
            rw [hsecret, hsum, Nat.shiftRight_eq_div_pow]
            omega
          refine ⟨by rw [fillSecret_eq, List.append_nil, List.length_map, Digits.length_digits], ?_⟩
          rw [hvalue, codeSymbols, hv, ← hlen, Digits.digits_value hds]

/-- The fold of an ASCII input. -/
theorem fold_ascii (hn : AsciiFixed nfkc) (hu : UpperAscii toUpperCase) {input : JsString} (h : ∀ c ∈ input, c < 128) :
    foldSymbols (toUpperCase (nfkc input)) = canonicalCode input := by
  have hkeep : ∀ c : UInt16, (isSpace (asciiUpper c) || asciiUpper c == 45) = (isSpace c || c == 45) := by
    intro c
    unfold asciiUpper
    split
    · rename_i hc
      -- a letter of either case is no space and no dash
      have hall : ∀ n : Fin 26, (isSpace (UInt16.ofNat (97 + n) - 32) || UInt16.ofNat (97 + n) - 32 == 45) =
          (isSpace (UInt16.ofNat (97 + n)) || UInt16.ofNat (97 + n) == 45) := by decide
      have hlow : 97 ≤ c.toNat := hc.1
      have hhigh : c.toNat ≤ 122 := hc.2
      have hn := hall ⟨c.toNat - 97, by omega⟩
      have hback : UInt16.ofNat (97 + (c.toNat - 97)) = c := by
        rw [Nat.add_sub_cancel' hlow, UInt16.ofNat_toNat]
      simp only [hback] at hn
      exact hn
    · rfl
  rw [hn _ h, hu _ h]
  unfold foldSymbols canonicalCode
  rw [List.filter_map]
  congr 2
  exact List.filter_congr fun c _ => by rw [Function.comp_apply, hkeep]

/-- The code of a secret parses to it; an accepted ASCII input is, up to spaces, dashes, case and the letters read as
digits, the code of its secret; so two inputs for one secret are one. -/
theorem recovery_codes (sha256 : Bytes → Bytes) (nfkc toUpperCase : JsString → JsString) (hn : AsciiFixed nfkc)
    (hu : UpperAscii toUpperCase) :
    (∀ secret : Bytes, secret.length = 16 → ∃ code, formatRecoveryCode sha256 secret = some code ∧
      parseRecoveryCode sha256 nfkc toUpperCase code = some secret) ∧
    (∀ (input : JsString) (secret : Bytes), (∀ c ∈ input, c < 128) →
      parseRecoveryCode sha256 nfkc toUpperCase input = some secret → ∃ code,
        formatRecoveryCode sha256 secret = some code ∧ canonicalCode input = code.filter (· ≠ 45)) ∧
    ∀ (input input' : JsString) (secret : Bytes), (∀ c ∈ input, c < 128) → (∀ c ∈ input', c < 128) →
      parseRecoveryCode sha256 nfkc toUpperCase input = some secret →
      parseRecoveryCode sha256 nfkc toUpperCase input' = some secret → canonicalCode input = canonicalCode input' := by
  have hcode : ∀ (input : JsString) (secret : Bytes), (∀ c ∈ input, c < 128) →
      parseRecoveryCode sha256 nfkc toUpperCase input = some secret →
      canonicalCode input = codeSymbols (codeValue sha256 secret) := by
    intro input secret hi h
    rw [← fold_ascii hn hu hi]
    exact (format_parse h).2
  refine ⟨fun secret h => ⟨_, format_eq h, parse_format hn hu h⟩, fun input secret hi h => ?_, ?_⟩
  · exact ⟨_, format_eq (format_parse h).1, by rw [undash_code, hcode input secret hi h]⟩
  · intro input input' secret hi hi' h h'
    rw [hcode input secret hi h, hcode input' secret hi' h']

/-- The first bytes of the hash of the label and 16 zero bytes. -/
def zeroSecretHash : Bytes := [50, 66, 165, 247, 201, 109, 52, 97]

/-- The code of 16 zero bytes, with a hash that is the real one there. -/
theorem recovery_codes_zero : ∃ code,
    formatRecoveryCode (fun _ => zeroSecretHash) (List.replicate 16 0) = some code ∧
      parseRecoveryCode (fun _ => zeroSecretHash) id (List.map asciiUpper) code = some (List.replicate 16 0) :=
  (recovery_codes (fun _ => zeroSecretHash) id (List.map asciiUpper) (fun _ _ => rfl) (fun _ _ => rfl)).1
    (List.replicate 16 0) rfl

end KyNotes.Web
