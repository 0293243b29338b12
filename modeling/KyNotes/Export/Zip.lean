import KyNotes.Lib.Binary
import KyNotes.Lib.Crc
import KyNotes.Lib.Utf16

/-!
# The zip writer

`crc32` and `zip` of `web/src/zip.ts`: stored entries, one local header before each, a central directory and the record
that ends it; every offset, size and count is written by hand.

`unzip` is a reader after the format, not after the writer: it looks for the end record from the end of the file on,
follows the central directory to each local header and checks the CRC of what it finds, bit by bit.

* `crc32_eq`: the table-driven CRC is the one of the definition;
* `At.central`, `At.locals`: where the headers stand (`Binary.At`);
* `unzip_zip`: so the reader finds the names and the data of every archive that fits.
-/

namespace KyNotes.Export

open Binary

/-- JavaScript strings are lists of 16-bit code units. -/
abbrev Text := List UInt16

structure ZipEntry where
  path : Text
  data : Bytes

/-! ## CRC -/

/-- The table entry of a byte. -/
def crcEntry (n : Nat) : BitVec 32 :=
  (List.range 8).foldl (fun c _ => if c.getLsbD 0 then 0xedb88320#32 ^^^ (c >>> 1) else c >>> 1) (BitVec.ofNat 32 n)

def CRC_TABLE : List (BitVec 32) := (List.range 256).map crcEntry

def crc32 (data : Bytes) : BitVec 32 :=
  data.foldl (fun crc byte => CRC_TABLE.getD ((crc ^^^ byte.toBitVec.setWidth 32) &&& 255#32).toNat 0 ^^^ (crc >>> 8))
    0xffffffff#32 ^^^ 0xffffffff#32

/-- CRC-32 as it is defined: the reflected polynomial, one bit of the message at a time. -/
def bitwiseCrc32 (data : Bytes) : BitVec 32 := Crc.register 0xedb88320#32 0xffffffff#32 data ^^^ 0xffffffff#32

theorem crc32_eq (data : Bytes) : crc32 data = bitwiseCrc32 data := by
  unfold crc32 bitwiseCrc32
  congr 1
  refine Crc.register_eq_table (by decide) (fun n => CRC_TABLE.getD n 0) (fun n hn => ?_) _ data
  simp only [CRC_TABLE, List.getD_eq_getElem?_getD, List.getElem?_map, List.getElem?_range hn]
  rfl

/-! ## The writer -/

/-- The fields of `when` in local time. -/
structure Moment where
  year : Int
  month : Nat
  date : Nat
  hours : Nat
  minutes : Nat
  seconds : Nat

def zipTime (d : Moment) : Nat := (d.hours <<< 11) ||| (d.minutes <<< 5) ||| (d.seconds >>> 1)

def zipDate (d : Moment) : Nat := ((max 0 (d.year - 1980)).toNat <<< 9) ||| ((d.month + 1) <<< 5) ||| d.date

/-- `DataView.setUint16` and `DataView.setUint32`, little-endian. -/
def setUint16 (b : Bytes) (i v : Nat) : Bytes := write b i (le 2 v)

def setUint32 (b : Bytes) (i v : Nat) : Bytes := write b i (le 4 v)

def localHeader (time date : Nat) (name : Bytes) (crc size : Nat) : Bytes :=
  let l := List.replicate (30 + name.length) 0
  let l := setUint32 l 0 0x04034b50
  let l := setUint16 l 4 20
  let l := setUint16 l 6 0x0800 -- names are UTF-8
  let l := setUint16 (setUint16 l 10 time) 12 date
  let l := setUint32 (setUint32 (setUint32 l 14 crc) 18 size) 22 size
  let l := setUint16 l 26 name.length
  write l 30 name

def centralHeader (time date : Nat) (name : Bytes) (crc size offset : Nat) : Bytes :=
  let c := List.replicate (46 + name.length) 0
  let c := setUint32 c 0 0x02014b50
  let c := setUint16 (setUint16 c 4 20) 6 20
  let c := setUint16 c 8 0x0800
  let c := setUint16 (setUint16 c 12 time) 14 date
  let c := setUint32 (setUint32 (setUint32 c 16 crc) 20 size) 24 size
  let c := setUint16 c 28 name.length
  let c := setUint32 c 42 offset
  write c 46 name

def endRecord (count centralSize offset : Nat) : Bytes :=
  let e := List.replicate 22 0
  let e := setUint32 e 0 0x06054b50
  let e := setUint16 (setUint16 e 8 count) 10 count
  setUint32 (setUint32 e 12 centralSize) 16 offset

/-- The variables of the loop over the entries. -/
structure ZipState where
  parts : List Bytes := []
  central : List Bytes := []
  offset : Nat := 0

def addEntry (time date : Nat) (z : ZipState) (entry : ZipEntry) : Except String ZipState :=
  let name := Utf16.encode entry.path
  let crc := (crc32 entry.data).toNat
  let size := entry.data.length
  if z.offset + 30 + name.length + size > 0xffffffff then throw "Export is larger than 4 GiB"
  else
    let header := localHeader time date name crc size
    pure {
      parts := z.parts ++ [header, entry.data]
      central := z.central ++ [centralHeader time date name crc size z.offset]
      offset := z.offset + (header.length + size) }

def zip (entries : List ZipEntry) (d : Moment) : Except String Bytes :=
  if entries.length > 0xffff then throw "Too many files for one zip"
  else do
    let z ← entries.foldlM (addEntry (zipTime d) (zipDate d)) {}
    let centralSize := (z.central.map List.length).sum
    pure ((z.parts ++ z.central ++ [endRecord entries.length centralSize z.offset]).flatten)

/-! ## The reader -/

/-- The end record with a comment that ends the file stands at `i`. -/
def isEnd (file : Bytes) (i : Nat) : Bool :=
  field file i 4 == some 0x06054b50 && field file (i + 20) 2 == some (file.length - (i + 22))

/-- The end record, searched from `i` down. -/
def findEnd (file : Bytes) : Nat → Option Nat
  | 0 => if isEnd file 0 then some 0 else none
  | i + 1 => if isEnd file (i + 1) then some (i + 1) else findEnd file i

/-- A stored entry from its local header. -/
def readLocal (file : Bytes) (i : Nat) (name : Bytes) (crc size : Nat) : Option Bytes := do
  if (← field file i 4) ≠ 0x04034b50 then none
  let nameLength ← field file (i + 26) 2
  let extra ← field file (i + 28) 2
  if (← slice file (i + 30) nameLength) ≠ name then none
  let data ← slice file (i + 30 + nameLength + extra) size
  if (bitwiseCrc32 data).toNat ≠ crc then none
  some data

/-- A name of an entry that is marked as UTF-8. -/
def readName (flags : Nat) (name : Bytes) : Option Text :=
  if flags.testBit 11 then (String.fromUTF8? ⟨name.toArray⟩).map Utf16.ofText else none

/-- `n` central headers from `i` on, each with its entry. -/
def readCentral (file : Bytes) : Nat → Nat → Option (List ZipEntry)
  | 0, _ => some []
  | n + 1, i => do
    if (← field file i 4) ≠ 0x02014b50 then none
    let flags ← field file (i + 8) 2
    let method ← field file (i + 10) 2
    if method ≠ 0 then none
    let crc ← field file (i + 16) 4
    let packed ← field file (i + 20) 4
    let size ← field file (i + 24) 4
    if packed ≠ size then none
    let nameLength ← field file (i + 28) 2
    let extra ← field file (i + 30) 2
    let comment ← field file (i + 32) 2
    let offset ← field file (i + 42) 4
    let name ← slice file (i + 46) nameLength
    let data ← readLocal file offset name crc size
    let path ← readName flags name
    let rest ← readCentral file n (i + 46 + nameLength + extra + comment)
    some (⟨path, data⟩ :: rest)

def unzip (file : Bytes) : Option (List ZipEntry) :=
  if file.length < 22 then none
  else do
    let i ← findEnd file (file.length - 22)
    let count ← field file (i + 10) 2
    let start ← field file (i + 16) 4
    readCentral file count start

/-! ## The headers by their fields -/

theorem localHeader_eq (time date : Nat) (name : Bytes) (crc size : Nat) :
    localHeader time date name crc size = le 4 0x04034b50 ++ (le 2 20 ++ (le 2 0x0800 ++ (le 2 0 ++ (le 2 time ++
      (le 2 date ++ (le 4 crc ++ (le 4 size ++ (le 4 size ++ (le 2 name.length ++ (le 2 0 ++ name)))))))))) := by
  have hzero : List.replicate (30 + name.length) (0 : UInt8) = List.replicate 30 0 ++ List.replicate name.length 0 :=
    List.replicate_add 30 name.length 0
  simp [localHeader, hzero, setUint16, setUint32, write, le, List.replicate]
  omega

theorem centralHeader_eq (time date : Nat) (name : Bytes) (crc size offset : Nat) :
    centralHeader time date name crc size offset = le 4 0x02014b50 ++ (le 2 20 ++ (le 2 20 ++ (le 2 0x0800 ++
      (le 2 0 ++ (le 2 time ++ (le 2 date ++ (le 4 crc ++ (le 4 size ++ (le 4 size ++ (le 2 name.length ++ (le 2 0 ++
        (le 2 0 ++ (le 2 0 ++ (le 2 0 ++ (le 4 0 ++ (le 4 offset ++ name)))))))))))))))) := by
  have hzero : List.replicate (46 + name.length) (0 : UInt8) = List.replicate 46 0 ++ List.replicate name.length 0 :=
    List.replicate_add 46 name.length 0
  simp [centralHeader, hzero, setUint16, setUint32, write, le, List.replicate]
  omega

theorem endRecord_eq (count centralSize offset : Nat) :
    endRecord count centralSize offset = le 4 0x06054b50 ++ (le 2 0 ++ (le 2 0 ++ (le 2 count ++ (le 2 count ++
      (le 4 centralSize ++ (le 4 offset ++ le 2 0)))))) := by
  simp [endRecord, setUint16, setUint32, write, le, List.replicate]

@[simp] theorem length_localHeader (time date : Nat) (name : Bytes) (crc size : Nat) :
    (localHeader time date name crc size).length = 30 + name.length := by
  rw [localHeader_eq]
  simp only [List.length_append, length_le]
  omega

@[simp] theorem length_centralHeader (time date : Nat) (name : Bytes) (crc size offset : Nat) :
    (centralHeader time date name crc size offset).length = 46 + name.length := by
  rw [centralHeader_eq]
  simp only [List.length_append, length_le]
  omega

@[simp] theorem length_endRecord (count centralSize offset : Nat) : (endRecord count centralSize offset).length = 22 := by
  rw [endRecord_eq]
  simp only [List.length_append, length_le]

/-! ## What the writer gives -/

variable (time date : Nat)

/-- An entry as it stands in the file. -/
def localPart (e : ZipEntry) : Bytes :=
  localHeader time date (Utf16.encode e.path) (crc32 e.data).toNat e.data.length ++ e.data

def locals (es : List ZipEntry) : Bytes := es.flatMap (localPart time date)

/-- The central directory of entries that stand from `offset` on. -/
def centrals : Nat → List ZipEntry → Bytes
  | _, [] => []
  | offset, e :: es =>
    centralHeader time date (Utf16.encode e.path) (crc32 e.data).toNat e.data.length offset ++
      centrals (offset + (localPart time date e).length) es

/-- The bytes of the whole archive. -/
def archiveSize (es : List ZipEntry) : Nat :=
  (es.map fun e => 76 + 2 * (Utf16.encode e.path).length + e.data.length).sum + 22

theorem length_localPart (e : ZipEntry) :
    (localPart time date e).length = 30 + (Utf16.encode e.path).length + e.data.length := by
  unfold localPart
  rw [List.length_append, length_localHeader]

theorem length_locals_cons (e : ZipEntry) (es : List ZipEntry) :
    (locals time date (e :: es)).length = (localPart time date e).length + (locals time date es).length := by
  unfold locals
  rw [List.flatMap_cons, List.length_append]

theorem length_archive : ∀ (offset : Nat) (es : List ZipEntry),
    (locals time date es).length + (centrals time date offset es).length + 22 = archiveSize es
  | _, [] => rfl
  | offset, e :: es => by
    have ih := length_archive (offset + (localPart time date e).length) es
    have hsize : archiveSize (e :: es) = 76 + 2 * (Utf16.encode e.path).length + e.data.length + archiveSize es := by
      unfold archiveSize
      rw [List.map_cons, List.sum_cons, Nat.add_assoc]
    rw [length_locals_cons, length_localPart, centrals, List.length_append, length_centralHeader, hsize]
    omega

/-- One entry that stays below 4 GiB. -/
theorem addEntry_ok {z : ZipState} {e : ZipEntry} (h : z.offset + (localPart time date e).length ≤ 0xffffffff) :
    addEntry time date z e = .ok {
      parts := z.parts ++ [localHeader time date (Utf16.encode e.path) (crc32 e.data).toNat e.data.length, e.data]
      central := z.central ++
        [centralHeader time date (Utf16.encode e.path) (crc32 e.data).toNat e.data.length z.offset]
      offset := z.offset + (localPart time date e).length } := by
  have hpart := length_localPart time date e
  unfold addEntry
  dsimp only
  rw [if_neg (by omega), length_localHeader, ← hpart]
  rfl

/-- The loop, when what it writes stays below 4 GiB. -/
theorem foldlM_addEntry (es : List ZipEntry) (z : ZipState) (h : z.offset + (locals time date es).length ≤ 0xffffffff) :
    ∃ z', es.foldlM (addEntry time date) z = .ok z' ∧
      z'.parts.flatten = z.parts.flatten ++ locals time date es ∧
      z'.central.flatten = z.central.flatten ++ centrals time date z.offset es ∧
      z'.offset = z.offset + (locals time date es).length := by
  induction es generalizing z with
  | nil => exact ⟨z, rfl, by simp [locals], by simp [centrals], rfl⟩
  | cons e es ih =>
    have hcons := length_locals_cons time date e es
    rw [List.foldlM_cons, addEntry_ok time date (by omega)]
    obtain ⟨z', hz', hparts, hcentral, hoffset⟩ := ih {
      parts := z.parts ++ [localHeader time date (Utf16.encode e.path) (crc32 e.data).toNat e.data.length, e.data]
      central := z.central ++
        [centralHeader time date (Utf16.encode e.path) (crc32 e.data).toNat e.data.length z.offset]
      offset := z.offset + (localPart time date e).length } (by dsimp only; omega)
    refine ⟨z', hz', ?_, ?_, ?_⟩
    · rw [hparts]
      simp [locals, localPart]
    · rw [hcentral]
      simp [centrals]
    · rw [hoffset, hcons]
      exact Nat.add_assoc _ _ _

/-! ## What the reader finds -/

variable {time date} {file : Bytes} {i : Nat}

/-- The fields of a local header that stands at `i`, and the data after it. -/
theorem readLocal_at {name data : Bytes} (hname : name.length < 2 ^ 16)
    (h : At file i (localHeader time date name (crc32 data).toNat data.length ++ data)) :
    readLocal file i name (crc32 data).toNat data.length = some data := by
  have hl := h.left
  rw [localHeader_eq] at hl
  have h₂₆ := (((((((((hl.skip (length_le 4 _)).skip (length_le 2 _)).skip (length_le 2 _)).skip
    (length_le 2 _)).skip (length_le 2 _)).skip (length_le 2 _)).skip (length_le 4 _)).skip (length_le 4 _)).skip
    (length_le 4 _))
  have h₂₈ := h₂₆.skip (length_le 2 _)
  have hsig : field file i 4 = some 0x04034b50 := hl.left.field (by decide)
  have hlen : field file (i + 26) 2 = some name.length := h₂₆.left.field hname
  have hextra : field file (i + 28) 2 = some 0 := h₂₈.left.field (by decide)
  have hn : slice file (i + 30) name.length = some name := (h₂₈.skip (length_le 2 _)).slice
  have hdata : slice file (i + 30 + name.length) data.length = some data := by
    have hr := (h.skip (length_localHeader ..)).slice
    rw [← Nat.add_assoc] at hr
    exact hr
  simp [readLocal, hsig, hlen, hextra, hn, hdata, crc32_eq]

/-- The name of a path that is a text. -/
theorem readName_encode (s : String) : readName 0x0800 (Utf16.encode (Utf16.ofText s)) = some (Utf16.ofText s) := by
  rw [Utf16.encode_ofText]
  have hs : String.fromUTF8? ⟨(Utf16.utf8 s).toArray⟩ = some s := by
    simp only [String.fromUTF8?, Utf16.utf8]
    exact dif_pos s.isValidUTF8
  unfold readName
  rw [if_pos (by decide), hs]
  rfl

/-- The central directory that stands at `i`, with the entries that stand from `offset` on. -/
theorem readCentral_at (es : List ZipEntry) (i offset : Nat) (hpath : ∀ e ∈ es, ∃ s, e.path = Utf16.ofText s)
    (hname : ∀ e ∈ es, (Utf16.encode e.path).length < 2 ^ 16)
    (hsize : offset + (locals time date es).length < 2 ^ 32)
    (hl : At file offset (locals time date es)) (hc : At file i (centrals time date offset es)) :
    readCentral file es.length i = some es := by
  induction es generalizing i offset with
  | nil => rfl
  | cons e es ih =>
    obtain ⟨s, hs⟩ := hpath e List.mem_cons_self
    have hn := hname e List.mem_cons_self
    have hpart := length_localPart time date e
    rw [length_locals_cons] at hsize
    rw [locals, List.flatMap_cons] at hl
    rw [centrals] at hc
    have hrest : readCentral file es.length (i + 46 + (Utf16.encode e.path).length) = some es := by
      refine ih _ _ (fun e he => hpath e (List.mem_cons_of_mem _ he)) (fun e he => hname e (List.mem_cons_of_mem _ he))
        (by omega) hl.right ?_
      have hr := hc.skip (length_centralHeader ..)
      rw [← Nat.add_assoc] at hr
      exact hr
    have hlocal := readLocal_at hn hl.left
    have hh := hc.left
    rw [centralHeader_eq] at hh
    have h₈ := ((hh.skip (length_le 4 _)).skip (length_le 2 _)).skip (length_le 2 _)
    have h₁₀ := h₈.skip (length_le 2 _)
    have h₁₆ := ((h₁₀.skip (length_le 2 _)).skip (length_le 2 _)).skip (length_le 2 _)
    have h₂₀ := h₁₆.skip (length_le 4 _)
    have h₂₄ := h₂₀.skip (length_le 4 _)
    have h₂₈ := h₂₄.skip (length_le 4 _)
    have h₃₀ := h₂₈.skip (length_le 2 _)
    have h₃₂ := h₃₀.skip (length_le 2 _)
    have h₄₂ := (((h₃₂.skip (length_le 2 _)).skip (length_le 2 _)).skip (length_le 2 _)).skip (length_le 4 _)
    have hsig : field file i 4 = some 0x02014b50 := hh.left.field (by decide)
    have hflags : field file (i + 8) 2 = some 0x0800 := h₈.left.field (by decide)
    have hmethod : field file (i + 10) 2 = some 0 := h₁₀.left.field (by decide)
    have hcrc : field file (i + 16) 4 = some (crc32 e.data).toNat := h₁₆.left.field (crc32 e.data).isLt
    have hpacked : field file (i + 20) 4 = some e.data.length := h₂₀.left.field (by omega)
    have hunpacked : field file (i + 24) 4 = some e.data.length := h₂₄.left.field (by omega)
    have hlen : field file (i + 28) 2 = some (Utf16.encode e.path).length := h₂₈.left.field hn
    have hextra : field file (i + 30) 2 = some 0 := h₃₀.left.field (by decide)
    have hcomment : field file (i + 32) 2 = some 0 := h₃₂.left.field (by decide)
    have hoffset : field file (i + 42) 4 = some offset := h₄₂.left.field (by omega)
    have hnm : slice file (i + 46) (Utf16.encode e.path).length = some (Utf16.encode e.path) :=
      (h₄₂.skip (length_le 4 _)).slice
    have hread : readName 0x0800 (Utf16.encode e.path) = some e.path := by rw [hs, readName_encode]
    rw [List.length_cons, readCentral]
    simp [hsig, hflags, hmethod, hcrc, hpacked, hunpacked, hlen, hextra, hcomment, hoffset, hnm, hlocal, hread, hrest]

/-- The search ends where it starts when the end record stands there. -/
theorem findEnd_of_isEnd (h : isEnd file i = true) : findEnd file i = some i := by
  cases i <;> simp [findEnd, h]

/-- The file that the writer gives. -/
def archive (d : Moment) (es : List ZipEntry) : Bytes :=
  locals (zipTime d) (zipDate d) es ++ (centrals (zipTime d) (zipDate d) 0 es ++
    endRecord es.length (centrals (zipTime d) (zipDate d) 0 es).length (locals (zipTime d) (zipDate d) es).length)

theorem length_archive_eq (d : Moment) (es : List ZipEntry) : (archive d es).length = archiveSize es := by
  rw [← length_archive (zipTime d) (zipDate d) 0 es]
  simp only [archive, List.length_append, length_endRecord]
  omega

theorem zip_ok {es : List ZipEntry} (d : Moment) (hcount : es.length ≤ 65535) (hsize : archiveSize es < 2 ^ 32) :
    zip es d = .ok (archive d es) := by
  have hlen := length_archive (zipTime d) (zipDate d) 0 es
  obtain ⟨z, hz, hparts, hcentral, hoffset⟩ := foldlM_addEntry (zipTime d) (zipDate d) es {} (by dsimp only; omega)
  have hlocals : z.parts.flatten = locals (zipTime d) (zipDate d) es := hparts
  have hcentrals : z.central.flatten = centrals (zipTime d) (zipDate d) 0 es := hcentral
  have hend : z.offset = (locals (zipTime d) (zipDate d) es).length := hoffset.trans (Nat.zero_add _)
  unfold zip
  rw [if_neg (by omega), hz]
  show Except.ok _ = _
  rw [← List.length_flatten, hcentrals, hend, List.flatten_append, List.flatten_append, hlocals, hcentrals,
    List.flatten_singleton, List.append_assoc]
  rfl

/-- The table-driven CRC is CRC-32, and every archive of at most 65,535 entries with names of at most 65,535 bytes and
less than 4 GiB is written and read back: the names and the data, in order. -/
theorem unzip_zip :
    (∀ data, crc32 data = bitwiseCrc32 data) ∧
    ∀ (es : List ZipEntry) (d : Moment), es.length ≤ 65535 → (∀ e ∈ es, ∃ s, e.path = Utf16.ofText s) →
      (∀ e ∈ es, (Utf16.encode e.path).length ≤ 65535) → archiveSize es < 2 ^ 32 →
      ∃ file, zip es d = .ok file ∧ file.length = archiveSize es ∧ unzip file = some es := by
  refine ⟨crc32_eq, fun es d hcount hpath hname hsize => ⟨archive d es, zip_ok d hcount hsize, length_archive_eq d es, ?_⟩⟩
  have hlen := length_archive (zipTime d) (zipDate d) 0 es
  have hfile := length_archive_eq d es
  have hwhole : At (archive d es) 0 (archive d es) := at_self
  have hl : At (archive d es) 0 (locals (zipTime d) (zipDate d) es) := hwhole.left
  have hc := hwhole.right.left
  have he := hwhole.right.right
  rw [endRecord_eq] at he
  have h₁₀ := (((he.skip (length_le 4 _)).skip (length_le 2 _)).skip (length_le 2 _)).skip (length_le 2 _)
  have h₁₆ := (h₁₀.skip (length_le 2 _)).skip (length_le 4 _)
  have h₂₀ := h₁₆.skip (length_le 4 _)
  -- the end record stands at the end of the file
  have hi : (archive d es).length - 22 =
      0 + (locals (zipTime d) (zipDate d) es).length + (centrals (zipTime d) (zipDate d) 0 es).length := by omega
  rw [← hi] at he h₁₀ h₁₆ h₂₀
  have hend : isEnd (archive d es) ((archive d es).length - 22) = true := by
    have hsig := he.left.field (by decide)
    have hcomment : field (archive d es) _ 2 = some 0 := h₂₀.field (by decide)
    unfold isEnd
    rw [hsig, hcomment]
    have hzero : (archive d es).length - ((archive d es).length - 22 + 22) = 0 := by omega
    rw [hzero]
    rfl
  have hcountField : field (archive d es) _ 2 = some es.length := h₁₀.left.field (by omega)
  have hstart : field (archive d es) _ 4 = some (locals (zipTime d) (zipDate d) es).length := h₁₆.left.field (by omega)
  have hread := readCentral_at es _ 0 hpath (fun e he => Nat.lt_succ_of_le (hname e he)) (by omega) hl hc
  unfold unzip
  rw [if_neg (by omega), findEnd_of_isEnd hend]
  simp only [Option.bind_eq_bind, Option.bind_some]
  rw [hcountField, hstart]
  rw [Nat.zero_add] at hread
  exact hread

/-- Two files of one folder, one of them empty. -/
theorem unzip_zip_two : ∃ file,
    zip [⟨Utf16.ofText "a/b", [1, 2]⟩, ⟨Utf16.ofText "a/c", []⟩] ⟨2026, 0, 1, 0, 0, 0⟩ = .ok file ∧
    file.length = archiveSize [⟨Utf16.ofText "a/b", [1, 2]⟩, ⟨Utf16.ofText "a/c", []⟩] ∧
    unzip file = some [⟨Utf16.ofText "a/b", [1, 2]⟩, ⟨Utf16.ofText "a/c", []⟩] :=
  unzip_zip.2 _ _ (by decide) (by simp) (by decide) (by decide)

end KyNotes.Export
