import KyNotes.Lib.Fields
import KyNotes.Lib.Utf8
import KyNotes.Server.Store
import KyNotes.Setup.Receipts

/-!
# Commit receipts (`internal/httpapi/object_routes.go`)

What `commitReceipt` writes into the hash, byte by byte: a domain, then each string after its length in eight bytes and each
number in eight bytes. The bytes tell the seven fields (`tells_fields`), so that two commits with one receipt are a collision of
the hash (`collision_of_receipt`). The hash is a parameter.
-/

namespace KyNotes.Receipts

open Fields

/-- The bytes of a string of ASCII characters. -/
def ascii (s : String) : Bytes := s.toList.map fun c => UInt8.ofNat c.toNat

theorem ascii_inj {s t : String} (hs : ∀ c ∈ s.toList, c.toNat < 256) (ht : ∀ c ∈ t.toList, c.toNat < 256)
    (h : ascii s = ascii t) : s = t := by
  have htoNat : ∀ s : String, (∀ c ∈ s.toList, c.toNat < 256) → ((ascii s).map UInt8.toNat).map Char.ofNat = s.toList := by
    intro s hs
    rw [ascii, List.map_map, List.map_map]
    refine (List.map_congr_left fun c hc => ?_).trans (List.map_id _)
    rw [Function.comp_apply, Function.comp_apply, UInt8.toNat_ofNat', Nat.mod_eq_of_lt (hs c hc), Char.ofNat_toNat, id]
  exact String.toList_inj.mp (by rw [← htoNat s hs, h, htoNat t ht])

/-! ## Identifiers (`internal/ids`) -/

def alphabet : String := "0123456789abcdefghjkmnpqrstvwxyz"

/-- `Validate`. -/
def validate (idPrefix value : Bytes) : Bool :=
  value.length = idPrefix.length + 1 + 26 ∧ (idPrefix ++ [95]).isPrefixOf value ∧
    (Utf8.text (value.drop (idPrefix.length + 1))).all alphabet.toList.contains

/-- `Digest` of the blob store: a SHA-256 in hexadecimal. -/
def digestText (sum : Bytes) : Bytes := ascii (Setup.hexString sum)

example : validate (ascii "obj") (ascii "obj_00000000000000000000000000") = true := by decide +kernel

example : validate (ascii "obj") (ascii "obj_0000000000000000000000000!") = false := by decide +kernel

/-! ## Receipts -/

/-- The arguments of `commitReceipt`. -/
structure Commit where
  objectId : Bytes
  digest : Bytes
  version : Int64
  bytes : Int64
  generation : Int64
  baseVersion : Int64
  changeSeq : Int64
deriving DecidableEq

/-- A stored commit: the object ID was validated, and the digest is one that the blob store made. -/
structure Commit.WellFormed (c : Commit) : Prop where
  objectId : validate (ascii "obj") c.objectId = true
  digest : ∃ sum : Bytes, sum.length = 32 ∧ c.digest = digestText sum

/-- `writeReceiptString`: what the hash was given before, and after it the length and the string. -/
def writeReceiptString (h v : Bytes) : Bytes := h ++ be64 v.length ++ v

/-- `writeReceiptInt`. -/
def writeReceiptInt (h : Bytes) (v : Int64) : Bytes := h ++ be64 v.toUInt64.toNat

/-- What the hash is given. -/
def receiptInput (c : Commit) : Bytes :=
  let h := ascii "kynotes-commit-receipt-v1" ++ [0]
  let h := writeReceiptString h c.objectId
  let h := writeReceiptInt h c.version
  let h := writeReceiptString h c.digest
  let h := writeReceiptInt h c.bytes
  let h := writeReceiptInt h c.generation
  let h := writeReceiptInt h c.baseVersion
  writeReceiptInt h c.changeSeq

/-- `commitReceipt`. -/
def commitReceipt (sha256 : Bytes → Bytes) (c : Commit) : String := "sha256:" ++ Setup.hexString (sha256 (receiptInput c))

/-! ## The fields are told -/

/-- The fields, in the order in which they are written. -/
def Commit.fields (c : Commit) : Bytes × Int64 × Bytes × Int64 × Int64 × Int64 × Int64 :=
  (c.objectId, c.version, c.digest, c.bytes, c.generation, c.baseVersion, c.changeSeq)

theorem fields_injective : Function.Injective Commit.fields := by
  intro c c' h
  cases c
  cases c'
  simp only [Commit.fields, Prod.mk.injEq] at h
  obtain ⟨rfl, rfl, rfl, rfl, rfl, rfl, rfl⟩ := h
  rfl

/-- What is written after the domain. -/
def Commit.code (c : Commit) : Bytes :=
  longPrefixed c.objectId ++ (be64 c.version.toUInt64.toNat ++ (longPrefixed c.digest ++ (be64 c.bytes.toUInt64.toNat ++
    (be64 c.generation.toUInt64.toNat ++ (be64 c.baseVersion.toUInt64.toNat ++ be64 c.changeSeq.toUInt64.toNat)))))

theorem receiptInput_eq (c : Commit) : receiptInput c = (ascii "kynotes-commit-receipt-v1" ++ [0]) ++ c.code := by
  simp only [receiptInput, writeReceiptString, writeReceiptInt, Commit.code, longPrefixed, List.append_assoc]

theorem Commit.WellFormed.objectId_lt {c : Commit} (h : c.WellFormed) : c.objectId.length < 2 ^ 64 := by
  have hlength : c.objectId.length = (ascii "obj").length + 1 + 26 := (of_decide_eq_true h.objectId).1
  rw [hlength]
  decide

theorem length_digestText (sum : Bytes) : (digestText sum).length = sum.length * 2 := by
  simp [digestText, ascii, Setup.hexString, List.length_flatMap]

theorem Commit.WellFormed.digest_lt {c : Commit} (h : c.WellFormed) : c.digest.length < 2 ^ 64 := by
  obtain ⟨sum, hsum, hdigest⟩ := h.digest
  rw [hdigest, length_digestText, hsum]
  decide

/-- A number is told by its eight bytes. -/
theorem tells_int (f : Commit → Int64) : Tells Commit.WellFormed (fun c => be64 (f c).toUInt64.toNat) f := by
  refine .of_length (fun c => length_be64 _) fun c c' _ _ h => ?_
  have hnat := be64_inj (UInt64.toNat_lt _) (UInt64.toNat_lt _) h
  exact congrArg Int64.ofUInt64 (UInt64.toNat_inj.mp hnat)

theorem tells_fields : Tells Commit.WellFormed Commit.code Commit.fields := by
  have hid := delimiting_longPrefixed.tells (P := Commit.WellFormed) (f := Commit.objectId) fun _ => Commit.WellFormed.objectId_lt
  have hdigest := delimiting_longPrefixed.tells (P := Commit.WellFormed) (f := Commit.digest) fun _ => Commit.WellFormed.digest_lt
  exact hid.append ((tells_int Commit.version).append (hdigest.append ((tells_int Commit.bytes).append
    ((tells_int Commit.generation).append ((tells_int Commit.baseVersion).append (tells_int Commit.changeSeq))))))

theorem receiptInput_injOn : Set.InjOn receiptInput {c | c.WellFormed} := by
  intro c hc c' hc' h
  rw [receiptInput_eq, receiptInput_eq] at h
  exact fields_injective (tells_fields.eq hc hc' h)

/-- Two commits with one receipt are two inputs with one hash. -/
theorem collision_of_receipt {sha256 : Bytes → Bytes} {c c' : Commit} (hc : c.WellFormed) (hc' : c'.WellFormed) (hne : c ≠ c')
    (h : commitReceipt sha256 c = commitReceipt sha256 c') :
    receiptInput c ≠ receiptInput c' ∧ sha256 (receiptInput c) = sha256 (receiptInput c') :=
  ⟨fun heq => hne (receiptInput_injOn hc hc' heq), Setup.hexString_injective (String.append_right_inj _ |>.mp h)⟩

/-! ## The receipts of stored versions -/

section Versions

variable {objectText : ObjectId → Bytes}

/-- The arguments for a stored version. -/
def versionCommit (objectText : ObjectId → Bytes) (v : ObjectVersion) : Commit where
  objectId := objectText v.objectId
  digest := digestText v.blobDigest
  version := .ofNat v.version
  bytes := .ofNat v.ciphertextBytes
  generation := .ofNat v.keyGeneration
  baseVersion := .ofInt v.baseVersion
  changeSeq := .ofNat v.changeSeq

/-- The numbers of a stored version have 64 bits. -/
structure Fits (v : ObjectVersion) : Prop where
  version : v.version < 2 ^ 63
  bytes : v.ciphertextBytes < 2 ^ 63
  generation : v.keyGeneration < 2 ^ 63
  baseVersion : -2 ^ 63 ≤ v.baseVersion ∧ v.baseVersion < 2 ^ 63
  changeSeq : v.changeSeq < 2 ^ 63

theorem digestText_injective : Function.Injective digestText := by
  intro sum sum' h
  have hascii : ∀ sum, ∀ c ∈ (Setup.hexString sum).toList, c.toNat < 256 := by
    intro sum c hc
    rw [Setup.hexString, String.toList_ofList] at hc
    obtain ⟨b, -, hc⟩ := List.mem_flatMap.mp hc
    have hb := b.toNat_lt
    have hdigit : ∀ d < 16, (Char.ofNat (JsonText.hexDigit d)).toNat < 256 := by decide
    simp only [List.mem_cons, List.not_mem_nil, or_false] at hc
    rcases hc with rfl | rfl
    · exact hdigit _ (by omega)
    · exact hdigit _ (by omega)
  exact Setup.hexString_injective (ascii_inj (hascii sum) (hascii sum') h)

theorem int64_ofNat_inj {m n : ℕ} (hm : m < 2 ^ 63) (hn : n < 2 ^ 63) (h : Int64.ofNat m = Int64.ofNat n) : m = n := by
  have hint := congrArg Int64.toInt h
  rw [Int64.toInt_ofNat_of_lt hm, Int64.toInt_ofNat_of_lt hn] at hint
  exact Int.ofNat_inj.mp hint

/-- The record that stands for the receipt of a version is told by the bytes that are hashed of it. -/
theorem receipt_of_input (htext : Function.Injective objectText) {v v' : ObjectVersion} (hv : Fits v) (hv' : Fits v')
    (hw : (versionCommit objectText v).WellFormed) (hw' : (versionCommit objectText v').WellFormed)
    (h : receiptInput (versionCommit objectText v) = receiptInput (versionCommit objectText v')) :
    KyNotes.commitReceipt v = KyNotes.commitReceipt v' := by
  have hcommit := receiptInput_injOn hw hw' h
  simp only [versionCommit, Commit.mk.injEq] at hcommit
  obtain ⟨hid, hdigest, hversion, hbytes, hgeneration, hbase, hseq⟩ := hcommit
  have hbase' : v.baseVersion = v'.baseVersion := by
    have hint := congrArg Int64.toInt hbase
    rwa [Int64.toInt_ofInt_of_le hv.baseVersion.1 hv.baseVersion.2, Int64.toInt_ofInt_of_le hv'.baseVersion.1 hv'.baseVersion.2]
      at hint
  rw [KyNotes.commitReceipt, KyNotes.commitReceipt, htext hid, digestText_injective hdigest, hbase', int64_ofNat_inj hv.version hv'.version hversion,
    int64_ofNat_inj hv.bytes hv'.bytes hbytes, int64_ofNat_inj hv.generation hv'.generation hgeneration,
    int64_ofNat_inj hv.changeSeq hv'.changeSeq hseq]

end Versions

/-! ## Receipts are unambiguous -/

/-- The bytes that are hashed tell the commit, and with a hash that has no collisions its receipt does. -/
theorem commitReceipt_unambiguous : Set.InjOn receiptInput {c | c.WellFormed} ∧
    ∀ sha256 : Bytes → Bytes, Function.Injective sha256 → Set.InjOn (commitReceipt sha256) {c | c.WellFormed} := by
  refine ⟨receiptInput_injOn, fun sha256 hideal c hc c' hc' h => ?_⟩
  by_contra hne
  obtain ⟨hinput, hhash⟩ := collision_of_receipt hc hc' hne h
  exact hinput (hideal hhash)

end KyNotes.Receipts
