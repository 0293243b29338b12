import KyNotes.Backup.Payload

/-!
# What a backup restores to

The files of a payload have distinct paths, so that a directory with them reads back each one, and the parts of the
snapshot join to it (`Restored.opened`). Every check passes on what is read but the one of the reservations, which is
about the slots alone: `Restored.checks` says that `Checks` is `VerifyCleanupReservations` here.
-/

namespace KyNotes.Backup

open Relational Check Cleanup

/-! ## Secrets -/

theorem decodeString_encodeToString (b : Bytes) : decodeString (encodeToString b) = some b := by
  have hplain : ∀ u ∈ encodeToString b, u ≠ 10 ∧ u ≠ 13 := by
    intro u hu
    obtain ⟨c, hc, rfl⟩ := List.mem_map.1 hu
    have hs := Base64.not_isSpace_of_mem_encode hc
    have hb := Base64.byte_of_mem_encode hc
    constructor
    · intro h
      rw [← hb, h] at hs
      cases hs
    · intro h
      rw [← hb, h] at hs
      cases hs
  have hfilter : (encodeToString b).filter (fun u => u ≠ 10 ∧ u ≠ 13) = encodeToString b :=
    List.filter_eq_self.2 fun u hu => decide_eq_true (hplain u hu)
  have hmap : (encodeToString b).map (fun u => UInt16.ofNat u.toNat) = Base64.encode b := by
    rw [encodeToString, List.map_map]
    exact (List.map_congr_left fun c hc => Base64.byte_of_mem_encode hc).trans (List.map_id _)
  have hspace : (Base64.encode b).all (fun c => !Base64.isSpace c) = true :=
    List.all_eq_true.2 fun c hc => by rw [Base64.not_isSpace_of_mem_encode hc]; rfl
  unfold decodeString
  simp only [hfilter, hmap]
  rw [if_pos ⟨Base64.length_encode b, hspace⟩, Base64.decode_encode]

theorem encodeToString_ne_nil {b : Bytes} (h : b ≠ []) : encodeToString b ≠ [] := by
  intro he
  have hd := decodeString_encodeToString b
  rw [he] at hd
  exact h (Option.some.inj hd).symm

/-! ## Paths -/

theorem digitChar_inj {a b : Nat} (ha : a < 10) (hb : b < 10) (h : Nat.digitChar a = Nat.digitChar b) : a = b := by
  have hall : ∀ a b : Fin 10, Nat.digitChar a = Nat.digitChar b → a = b := by decide
  exact congrArg Fin.val (hall ⟨a, ha⟩ ⟨b, hb⟩ h)

theorem pad3_inj {i j : Nat} (hi : i < 1000) (hj : j < 1000) (h : pad3 i = pad3 j) : i = j := by
  rw [pad3, pad3, if_pos hi, if_pos hj] at h
  injection h with h₁ h
  injection h with h₂ h
  injection h with h₃ h
  have h₁ := digitChar_inj (by omega) (by omega) h₁
  have h₂ := digitChar_inj (by omega) (by omega) h₂
  have h₃ := digitChar_inj (by omega) (by omega) h₃
  omega

theorem partNames_nodup {n : Nat} (hn : n ≤ 1000) : (partNames n).Nodup := by
  refine List.Nodup.map_on (fun i hi j hj h => ?_) List.nodup_range
  have hi := List.mem_range.1 hi
  have hj := List.mem_range.1 hj
  exact pad3_inj (by omega) (by omega) (List.cons.inj (List.append_cancel_left h)).2

/-- The name of a part is no member's. -/
theorem partName_ne {m : Path} (hm : m ∈ sqliteMember :: vapidMember :: otherMembers) (i : Nat) : partName i ≠ m := by
  have hall : ∀ m ∈ sqliteMember :: vapidMember :: otherMembers, m.take 15 ≠ "kynotes.sqlite.".toList := by decide
  intro h
  exact hall m hm (by rw [← h]; rfl)

theorem not_mem_partNames {m : Path} (hm : m ∈ sqliteMember :: vapidMember :: otherMembers) (n : Nat) :
    m ∉ partNames n := by
  intro h
  obtain ⟨i, -, hi⟩ := List.mem_map.1 h
  exact partName_ne hm i hi

theorem localPath_partName {i : Nat} (hi : i < 1000) : localPath (partName i) = true := by
  have hdigit : ∀ d : Fin 10, Nat.digitChar d ≠ '/' := by decide
  have hplain : ∀ c ∈ partName i, c ≠ '/' := by
    rintro c hc rfl
    rw [partName, pad3, if_pos hi, List.mem_append] at hc
    obtain hc | hc := hc
    · exact absurd hc (by decide)
    · simp only [List.mem_cons, List.not_mem_nil, or_false] at hc
      obtain hc | hc | hc | hc := hc
      · cases hc
      · exact hdigit ⟨i / 100, by omega⟩ hc.symm
      · exact hdigit ⟨i / 10 % 10, by omega⟩ hc.symm
      · exact hdigit ⟨i % 10, by omega⟩ hc.symm
  have hlen : 15 ≤ (partName i).length := by
    rw [partName, List.length_append]
    exact Nat.add_le_add_left (Nat.succ_le_succ (Nat.zero_le _)) 14
  rw [localPath, List.splitOn, List.splitOnP_eq_singleton fun c hc => beq_eq_false_iff_ne.2 (hplain c hc)]
  refine decide_eq_true (.inr ?_)
  rw [List.all_cons, List.all_nil, Bool.and_true]
  refine decide_eq_true ⟨?_, ?_, ?_⟩ <;> intro h <;> rw [h] at hlen <;> exact absurd hlen (by decide)

/-! ## Directories -/

section Directories

variable {dir : List File} {f : File} {path : Path}

/-- A directory has one file of a path. -/
theorem stat_of_mem (hn : (dir.map File.path).Nodup) (hf : f ∈ dir) : stat dir f.path = some f := by
  obtain ⟨g, hg⟩ : ∃ g, stat dir f.path = some g := by
    rw [← Option.isSome_iff_exists, stat, List.find?_isSome]
    exact ⟨f, hf, decide_eq_true rfl⟩
  have hgm : g ∈ dir := List.mem_of_find?_eq_some hg
  have hgp : g.path = f.path := by
    rw [stat] at hg
    simpa using List.find?_some hg
  rw [hg, List.inj_on_of_nodup_map hn hgm hf hgp]

theorem readFile_of_mem {b : Bytes} (hn : (dir.map File.path).Nodup) {mode : Nat} (hf : ⟨path, .bytes b, mode⟩ ∈ dir) :
    readFile dir path = some b := by
  rw [readFile, stat_of_mem (f := ⟨path, .bytes b, mode⟩) hn hf]
  rfl

theorem readInventory_of_mem {entries : List BlobEntry} (hn : (dir.map File.path).Nodup) {mode : Nat}
    (hf : ⟨path, .inventory entries, mode⟩ ∈ dir) : readInventory dir path = some entries := by
  rw [readInventory, stat_of_mem (f := ⟨path, .inventory entries, mode⟩) hn hf]
  rfl

theorem privateFiles_paths : ∀ {paths : List Path} {data : List Data}, paths.length = data.length →
    (privateFiles paths data).map File.path = paths
  | [], [], _ => rfl
  | p :: paths, d :: data, h => by
    rw [privateFiles, List.zipWith_cons_cons, List.map_cons]
    exact congrArg _ (privateFiles_paths (Nat.succ.inj h))

theorem mem_privateFiles : ∀ {paths : List Path} {data : List Data}, f ∈ privateFiles paths data →
    f.path ∈ paths ∧ f.data ∈ data ∧ f.mode = 0o600
  | [], _, h => by cases h
  | _ :: _, [], h => by cases h
  | p :: paths, d :: data, h => by
    obtain rfl | h := List.mem_cons.1 h
    · exact ⟨List.mem_cons_self, List.mem_cons_self, rfl⟩
    · obtain ⟨hp, hd, hm⟩ := mem_privateFiles h
      exact ⟨List.mem_cons_of_mem _ hp, List.mem_cons_of_mem _ hd, hm⟩

/-- The files of a list of byte strings, read in order. -/
theorem mapM_readFile (hn : (dir.map File.path).Nodup) : ∀ {paths : List Path} {parts : List Bytes},
    paths.length = parts.length → (∀ f ∈ privateFiles paths (parts.map .bytes), f ∈ dir) →
      paths.mapM (readFile dir) = some parts
  | [], [], _, _ => rfl
  | p :: paths, b :: parts, hl, h => by
    have hb : readFile dir p = some b := readFile_of_mem hn (h ⟨p, .bytes b, 0o600⟩ List.mem_cons_self)
    have ih := mapM_readFile hn (Nat.succ.inj hl) fun f hf => h f (List.mem_cons_of_mem _ hf)
    rw [List.mapM_cons, hb, ih]
    rfl

end Directories

/-! ## Counts -/

section Counts

variable {d : Database} {names : List String} {table : String}

/-- A server's database has every table. -/
theorem count_isSome (d : Database) (h : table ∈ tables ++ auditTables) : (d.count table).isSome := by
  have hall : (tables ++ auditTables).all fun t => (d.count t).isSome := rfl
  exact List.all_eq_true.1 hall table h

theorem fst_mem_of_mem_countTables {x : String × Int} (h : x ∈ countTables d names) : x.1 ∈ names := by
  obtain ⟨t, ht, hx⟩ := List.mem_filterMap.1 h
  obtain ⟨n, -, rfl⟩ := Option.map_eq_some_iff.1 hx
  exact ht

theorem countTables_cons (names : List String) (h : (d.count table).isSome) :
    ∃ n, d.count table = some n ∧ countTables d (table :: names) = (table, (n : Int)) :: countTables d names := by
  obtain ⟨n, hn⟩ := Option.isSome_iff_exists.1 h
  exact ⟨n, hn, List.filterMap_cons_some (by rw [hn]; rfl)⟩

theorem length_countTables : ∀ {names : List String}, (∀ t ∈ names, (d.count t).isSome) →
    (countTables d names).length = names.length
  | [], _ => rfl
  | t :: names, h => by
    obtain ⟨n, -, hc⟩ := countTables_cons names (h t List.mem_cons_self)
    rw [hc, List.length_cons, List.length_cons, length_countTables fun t ht => h t (List.mem_cons_of_mem _ ht)]

theorem find_countTables : ∀ {names : List String}, (∀ t ∈ names, (d.count t).isSome) → table ∈ names →
    ((countTables d names).find? fun x => x.1 = table).map Prod.snd = (d.count table).map Int.ofNat
  | t :: names, h, ht => by
    obtain ⟨n, hn, hc⟩ := countTables_cons names (h t List.mem_cons_self)
    rw [hc]
    by_cases he : t = table
    · subst he
      rw [List.find?_cons_of_pos (by simp), hn]
      rfl
    · rw [List.find?_cons_of_neg (by simpa using he)]
      obtain rfl | ht := List.mem_cons.1 ht
      · exact absurd rfl he
      · exact find_countTables (fun t ht => h t (List.mem_cons_of_mem _ ht)) ht

end Counts

/-! ## The payload -/

section Payload

variable {P : Packages} {cfg : P.Config} {key : P.PublicKey} {parts : List Bytes} {vapid : Option Bytes} {d : Database}
  {f : File}

/-- The parts of a snapshot that fits: at least one, at most 1000, none of them empty. -/
structure Fit (parts : List Bytes) : Prop where
  ne_nil : parts ≠ []
  le : parts.length ≤ 1000
  part_ne_nil : ∀ b ∈ parts, b ≠ []

theorem length_sqlitePathsOf (h : parts ≠ []) : (sqlitePathsOf parts).length = parts.length := by
  unfold sqlitePathsOf
  split
  · rw [partNames, List.length_map, List.length_range]
  · have := List.length_pos_of_ne_nil h
    rw [List.length_singleton]
    omega

theorem sqlitePathsOf_valid (h : Fit parts) : sqlitePathsValid (sqlitePathsOf parts) = true := by
  have hlen := length_sqlitePathsOf h.ne_nil
  refine decide_eq_true ?_
  by_cases h1 : 1 < parts.length
  · refine .inr ⟨hlen ▸ h1, hlen ▸ h.le, ?_⟩
    rw [hlen, sqlitePathsOf, if_pos h1]
  · exact .inl (if_neg h1)

theorem sqlitePathsOf_nodup (h : Fit parts) : (sqlitePathsOf parts).Nodup := by
  unfold sqlitePathsOf
  split
  · exact partNames_nodup h.le
  · exact List.nodup_singleton _

/-- The other members are no parts. -/
theorem not_mem_sqlitePathsOf {m : Path} (hm : m ∈ vapidMember :: otherMembers) : m ∉ sqlitePathsOf parts := by
  have hne : ∀ m ∈ vapidMember :: otherMembers, m ≠ sqliteMember := by decide
  unfold sqlitePathsOf
  split
  · exact not_mem_partNames (List.mem_cons_of_mem _ hm) _
  · exact fun h => hne m hm (List.mem_singleton.1 h)

theorem payload_paths (h : Fit parts) :
    (payload P cfg key parts vapid d).files.map File.path = (payload P cfg key parts vapid d).recipe.requiredFiles := by
  have hlen := length_sqlitePathsOf h.ne_nil
  have hv : (privateFiles [vapidMember] (vapid.toList.map .bytes)).map File.path =
      vapid.toList.map fun _ => vapidMember := by
    cases vapid <;> rfl
  simp only [payload, List.map_append]
  rw [privateFiles_paths (hlen.trans (List.length_map _).symm), privateFiles_paths rfl, hv]

theorem payload_nodup (h : Fit parts) : ((payload P cfg key parts vapid d).files.map File.path).Nodup := by
  have hother : otherMembers.Nodup := by decide
  have hvapid : vapidMember ∉ otherMembers := by decide
  have hmem : ∀ {m}, m ∈ vapid.toList.map (fun _ => vapidMember) → m = vapidMember := by
    intro m hm
    obtain ⟨-, -, rfl⟩ := List.mem_map.1 hm
    rfl
  rw [payload_paths h]
  refine List.Nodup.append (List.Nodup.append (sqlitePathsOf_nodup h) hother ?_) ?_ ?_
  · exact fun m hs ho => not_mem_sqlitePathsOf (List.mem_cons_of_mem _ ho) hs
  · cases vapid with
    | none => exact List.nodup_nil
    | some v => exact List.nodup_singleton _
  · intro m hm hv
    obtain rfl := hmem hv
    obtain hm | hm := List.mem_append.1 hm
    · exact not_mem_sqlitePathsOf List.mem_cons_self hm
    · exact hvapid hm

theorem required_local (h : Fit parts) {path : Path} (hp : path ∈ (payload P cfg key parts vapid d).recipe.requiredFiles) :
    localPath path = true := by
  have hall : ∀ m ∈ sqliteMember :: vapidMember :: otherMembers, localPath m = true := by decide +kernel
  simp only [payload, List.mem_append] at hp
  obtain (hp | hp) | hp := hp
  · unfold sqlitePathsOf at hp
    split at hp
    · obtain ⟨i, hi, rfl⟩ := List.mem_map.1 hp
      exact localPath_partName (Nat.lt_of_lt_of_le (List.mem_range.1 hi) h.le)
    · exact hall _ (List.mem_singleton.1 hp ▸ List.mem_cons_self)
  · exact hall _ (List.mem_cons_of_mem _ (List.mem_cons_of_mem _ hp))
  · obtain ⟨-, -, rfl⟩ := List.mem_map.1 hp
    exact hall _ (List.mem_cons_of_mem _ List.mem_cons_self)

/-- No file of a payload is empty, and all are private. -/
theorem payload_file (h : Fit parts) (hs : P.pairingSecret cfg ≠ [] ∧ P.serverSaltKey cfg ≠ [])
    (hk : P.publicBytes key ≠ []) (hc : P.yamlMarshal cfg ≠ []) (hv : ∀ v ∈ vapid, v ≠ [])
    (hf : f ∈ (payload P cfg key parts vapid d).files) : f.data.size ≠ 0 ∧ f.mode = 0o600 := by
  have hlen : ∀ {b : Bytes}, b ≠ [] → (Data.bytes b).size ≠ 0 := fun hb h => hb (List.length_eq_zero_iff.1 h)
  simp only [payload, List.mem_append] at hf
  obtain (hf | hf) | hf := hf
  · obtain ⟨-, hd, hm⟩ := mem_privateFiles hf
    obtain ⟨b, hb, hd⟩ := List.mem_map.1 hd
    exact ⟨hd ▸ hlen (h.part_ne_nil b hb), hm⟩
  · obtain ⟨-, hd, hm⟩ := mem_privateFiles hf
    refine ⟨?_, hm⟩
    simp only [memberData, List.mem_cons, List.not_mem_nil, or_false] at hd
    obtain hd | hd | hd | hd | hd := hd
    · exact hd ▸ hlen (encodeToString_ne_nil hs.1)
    · exact hd ▸ hlen (encodeToString_ne_nil hs.2)
    · exact hd ▸ hlen hk
    · exact hd ▸ hlen hc
    · rw [hd, Data.size, inventoryBytes]
      omega
  · obtain ⟨-, hd, hm⟩ := mem_privateFiles hf
    obtain ⟨v, hv', hd⟩ := List.mem_map.1 hd
    exact ⟨hd ▸ hlen (hv v (Option.mem_toList.1 hv')), hm⟩

theorem payload_counts : (payload P cfg key parts vapid d).recipe.counts = countTables d (tables ++ auditTables) :=
  List.filterMap_append.symm

theorem payload_want {table : String} (h : table ∈ tables ++ auditTables) :
    (payload P cfg key parts vapid d).recipe.want table = (d.count table).map Int.ofNat := by
  rw [Recipe.want, payload_counts]
  exact find_countTables (fun t ht => count_isSome d ht) h

end Payload

/-! ## The restored directory -/

section Restored

variable {P : Packages} {svc : Service P} {d : Database} {p : Payload}

/-- The packages are exact on what the service backs up, and the pin and the secrets are the ones of the settings. -/
structure Exact (P : Packages) (svc : Service P) (d : Database) : Prop where
  /-- The container's limit is no more than 1000 files. -/
  limits : 0 < P.maxFileBytes ∧ P.maxExpandedBytes ≤ 1000 * P.maxFileBytes
  snapshot : P.openDatabase (P.sqliteSnapshot d) = some d
  config : P.yamlUnmarshal (P.yamlMarshal svc.cfg) = some svc.cfg ∧ P.yamlMarshal svc.cfg ≠ []
  /-- `LoadRecoveryKey` loads the pinned key. -/
  pin : ∀ key, P.loadRecoveryKey d.settings = some key → d.settings.value "kyrecovery_key_id" = some (P.keyID key) ∧
    P.parsePublicKey (P.publicBytes key) = some key ∧ P.publicBytes key ≠ []
  /-- A stored token was sealed under the salt key. -/
  token : ∀ t, d.settings.value "kyrecovery_token_enc" = some t → t = "" ∨
    (P.openToken (P.serverSaltKey svc.cfg) t).isSome

/-- The parts of a snapshot. -/
def partsOf (P : Packages) (d : Database) : List Bytes := Split.parts P.maxFileBytes (P.sqliteSnapshot d)

theorem partsOf_fit (hlim : 0 < P.maxFileBytes ∧ P.maxExpandedBytes ≤ 1000 * P.maxFileBytes)
    (hle : (P.sqliteSnapshot d).length ≤ P.maxExpandedBytes) (hne : P.sqliteSnapshot d ≠ []) : Fit (partsOf P d) where
  ne_nil h := by
    have hf := Split.flatten_parts hlim.1 (P.sqliteSnapshot d)
    rw [show Split.parts P.maxFileBytes (P.sqliteSnapshot d) = [] from h] at hf
    exact hne hf.symm
  le := Split.length_parts_le hlim.1 (Nat.le_trans hle hlim.2)
  part_ne_nil _ hb := Split.parts_ne_nil hlim.1 hb

/-- What `Collect` returns, and what it checked. -/
structure Collected (P : Packages) (svc : Service P) (d : Database) (p : Payload) (key : P.PublicKey)
    (vapid : Option Bytes) : Prop where
  secrets : 32 ≤ (P.pairingSecret svc.cfg).length ∧ 32 ≤ (P.serverSaltKey svc.cfg).length
  loaded : P.loadRecoveryKey d.settings = some key
  fit : Fit (partsOf P d)
  vapid_ne_nil : ∀ v ∈ vapid, v ≠ []
  eq : p = payload P svc.cfg key (partsOf P d) vapid d

theorem readVapid_ok {data vapid : Option Bytes} (h : readVapid P data = .ok vapid) : ∀ v ∈ vapid, v ≠ [] := by
  cases data with
  | none => cases h; exact fun v hv => (by cases hv)
  | some data =>
    simp only [readVapid, bind_ok, require_ok, pure_ok] at h
    obtain ⟨_, ⟨hne, -⟩, rfl⟩ := h
    rintro v ⟨⟩
    exact hne

theorem collect_ok (he : Exact P svc d) (h : collect P svc d = .ok p) : ∃ key vapid, Collected P svc d p key vapid := by
  simp only [collect, readSnapshot, bind_ok, require_ok, fetch_ok, pure_ok] at h
  obtain ⟨_, hs, key, hk, parts, ⟨_, hle, _, hne, rfl⟩, snap, hsnap, _, -, vapid, hv, rfl⟩ := h
  obtain rfl : d = snap := Option.some.inj (he.snapshot.symm.trans hsnap)
  exact ⟨key, vapid, hs, hk, partsOf_fit he.limits hle hne, readVapid_ok hv, rfl⟩

/-- The files as `Checks` reads them, after the parts are joined. -/
structure Opened (P : Packages) (cfg : P.Config) (key : P.PublicKey) (d : Database) (dir : List File) : Prop where
  database : readFile dir sqliteMember = some (P.sqliteSnapshot d)
  pairing : readFile dir pairingMember = some (encodeToString (P.pairingSecret cfg))
  salt : readFile dir saltMember = some (encodeToString (P.serverSaltKey cfg))
  pin : readFile dir pinMember = some (P.publicBytes key)
  config : readFile dir configMember = some (P.yamlMarshal cfg)
  inventory : readInventory dir inventoryMember = some d.inventory

/-- A directory with the files of a payload. -/
theorem opened_of_mem {cfg : P.Config} {key : P.PublicKey} (dir : List File) (hn : (dir.map File.path).Nodup)
    (hd : readFile dir sqliteMember = some (P.sqliteSnapshot d))
    (h : ∀ f ∈ privateFiles otherMembers (memberData P cfg key d), f ∈ dir) : Opened P cfg key d dir where
  database := hd
  pairing := readFile_of_mem hn (h _ (.head _))
  salt := readFile_of_mem hn (h _ (.tail _ (.head _)))
  pin := readFile_of_mem hn (h _ (.tail _ (.tail _ (.head _))))
  config := readFile_of_mem hn (h _ (.tail _ (.tail _ (.tail _ (.head _)))))
  inventory := readInventory_of_mem hn (h _ (.tail _ (.tail _ (.tail _ (.tail _ (.head _))))))

variable {key : P.PublicKey} {vapid : Option Bytes} {dir : List File}

theorem Collected.nodup (hc : Collected P svc d p key vapid) (hdir : dir.Perm p.files) : (dir.map File.path).Nodup := by
  have hn : (p.files.map File.path).Nodup := by
    rw [hc.eq]
    exact payload_nodup hc.fit
  exact (hdir.map File.path).nodup_iff.2 hn

/-- The parts in the directory are those of the snapshot. -/
theorem Collected.parts (hc : Collected P svc d p key vapid) (hdir : dir.Perm p.files) :
    p.recipe.sqlitePaths.mapM (readFile dir) = some (partsOf P d) := by
  have hn := hc.nodup hdir
  have hpaths : p.recipe.sqlitePaths = sqlitePathsOf (partsOf P d) := by rw [hc.eq]; rfl
  rw [hpaths]
  refine mapM_readFile hn (length_sqlitePathsOf hc.fit.ne_nil) fun f hf => hdir.mem_iff.2 ?_
  rw [hc.eq]
  exact List.mem_append_left _ (List.mem_append_left _ hf)

theorem Collected.other (hc : Collected P svc d p key vapid) (hdir : dir.Perm p.files) :
    ∀ f ∈ privateFiles otherMembers (memberData P svc.cfg key d), f ∈ dir := by
  intro f hf
  rw [hdir.mem_iff, hc.eq]
  exact List.mem_append_left _ (List.mem_append_right _ hf)

/-- The name of the database is free where it is split. -/
theorem Collected.free (hc : Collected P svc d p key vapid) (hdir : dir.Perm p.files) (h1 : 1 < (partsOf P d).length) :
    sqliteMember ∉ dir.map File.path := by
  have hne : ∀ m ∈ vapidMember :: otherMembers, sqliteMember ≠ m := by decide
  rw [(hdir.map File.path).mem_iff, hc.eq, payload_paths hc.fit]
  simp only [payload, sqlitePathsOf, if_pos h1, List.mem_append, not_or]
  refine ⟨⟨not_mem_partNames List.mem_cons_self _, fun h => hne _ (List.mem_cons_of_mem _ h) rfl⟩, fun h => ?_⟩
  obtain ⟨-, -, h⟩ := List.mem_map.1 h
  exact hne _ List.mem_cons_self h.symm

/-- The split database members rejoin to the snapshot. -/
theorem Collected.joined (he : Exact P svc d) (hc : Collected P svc d p key vapid) (hdir : dir.Perm p.files)
    (h1 : 1 < (partsOf P d).length) :
    ∃ dir', joinParts dir p.recipe.sqlitePaths = some dir' ∧ Opened P svc.cfg key d dir' := by
  have hflat : (partsOf P d).flatten = P.sqliteSnapshot d := Split.flatten_parts he.limits.1 _
  have hfree := hc.free hdir h1
  have hstat : stat dir sqliteMember = none := by
    rw [stat, List.find?_eq_none]
    intro f hf hfs
    exact hfree (List.mem_map.2 ⟨f, hf, of_decide_eq_true hfs⟩)
  have hpaths : p.recipe.sqlitePaths = sqlitePathsOf (partsOf P d) := by rw [hc.eq]; rfl
  refine ⟨_, ?_, opened_of_mem (⟨sqliteMember, .bytes (P.sqliteSnapshot d), 0o600⟩ ::
    dir.filter fun f => f.path ∉ p.recipe.sqlitePaths) ?_ ?_ fun f hf => ?_⟩
  · rw [joinParts, hstat, hc.parts hdir, ← hflat]
    rfl
  · rw [List.map_cons, List.nodup_cons]
    refine ⟨fun h => ?_, (hc.nodup hdir).sublist (List.filter_sublist.map _)⟩
    exact hfree ((List.filter_sublist.map _).subset h)
  · rw [readFile, stat, List.find?_cons_of_pos (by simp)]
    rfl
  · refine List.mem_cons_of_mem _ (List.mem_filter.2 ⟨hc.other hdir f hf, decide_eq_true ?_⟩)
    rw [hpaths]
    exact not_mem_sqlitePathsOf (List.mem_cons_of_mem _ (mem_privateFiles hf).1)

theorem Collected.opened (he : Exact P svc d) (hc : Collected P svc d p key vapid) (hdir : dir.Perm p.files) :
    ∃ dir', (if 1 < p.recipe.sqlitePaths.length then joinParts dir p.recipe.sqlitePaths else some dir) = some dir' ∧
      Opened P svc.cfg key d dir' := by
  have hparts := hc.parts hdir
  have hlen : p.recipe.sqlitePaths.length = (partsOf P d).length := by
    rw [hc.eq]
    exact length_sqlitePathsOf hc.fit.ne_nil
  by_cases h1 : 1 < (partsOf P d).length
  · rw [if_pos (hlen ▸ h1)]
    exact hc.joined he hdir h1
  · refine ⟨dir, if_neg (hlen ▸ h1), opened_of_mem dir (hc.nodup hdir) ?_ (hc.other hdir)⟩
    obtain ⟨b, hb⟩ : ∃ b, partsOf P d = [b] := by
      have := List.length_pos_of_ne_nil hc.fit.ne_nil
      exact List.length_eq_one_iff.1 (by omega)
    have hflat : (partsOf P d).flatten = P.sqliteSnapshot d := Split.flatten_parts he.limits.1 _
    have hpaths : p.recipe.sqlitePaths = [sqliteMember] := by rw [hc.eq]; exact if_neg h1
    rw [hpaths, hb] at hparts
    rw [hb, List.flatten_singleton] at hflat
    obtain ⟨b', hb', h⟩ := Option.bind_eq_some_iff.1 (List.mapM_cons.symm.trans hparts)
    cases h
    rw [hb', hflat]

theorem Collected.checkRecipe (hc : Collected P svc d p key vapid) : checkRecipe p.recipe = .ok () := by
  have hcounts : p.recipe.counts = countTables d (tables ++ auditTables) := by
    rw [hc.eq]
    exact payload_counts
  have hlen : p.recipe.counts.length = 11 := by
    rw [hcounts]
    exact length_countTables fun t ht => count_isSome d ht
  have hvalid : sqlitePathsValid p.recipe.sqlitePaths = true := by
    rw [hc.eq]
    exact sqlitePathsOf_valid hc.fit
  simp only [Backup.checkRecipe, bind_ok, require_ok]
  refine ⟨(), ⟨?_, hvalid, ?_, ?_⟩, (), fun x hx => ?_, ?_⟩
  · rw [hc.eq]
    rfl
  · rw [hlen]
    decide
  · rw [hlen]
    decide
  · rw [hcounts] at hx
    exact List.mem_append.1 (fst_mem_of_mem_countTables hx)
  · rw [hc.eq]
    cases vapid with
    | none => exact .inl (List.append_nil _)
    | some v => exact .inr rfl

theorem Collected.checkMembers (he : Exact P svc d) (hc : Collected P svc d p key vapid) (hdir : dir.Perm p.files) :
    forEach (fun _ => checkMember dir) () p.recipe.requiredFiles = .ok () := by
  obtain ⟨-, -, hk⟩ := he.pin key hc.loaded
  have hne : ∀ {b : Bytes}, 32 ≤ b.length → b ≠ [] := fun h hb => absurd h (by rw [hb]; decide)
  refine forEach_same fun path hpath => ?_
  rw [hc.eq] at hpath
  have hlocal := required_local hc.fit hpath
  rw [← payload_paths hc.fit, ← hc.eq] at hpath
  obtain ⟨f, hf, rfl⟩ := List.mem_map.1 hpath
  have hstat := stat_of_mem (hc.nodup hdir) (hdir.mem_iff.2 hf)
  rw [hc.eq] at hf
  obtain ⟨hsize, hmode⟩ := payload_file hc.fit ⟨hne hc.secrets.1, hne hc.secrets.2⟩ hk he.config.2 hc.vapid_ne_nil hf
  simp only [checkMember, bind_ok, require_ok, fetch_ok]
  exact ⟨(), hlocal, f, hstat, hsize, by rw [hmode]; decide⟩

theorem Opened.checkConfig (he : Exact P svc d) (ho : Opened P svc.cfg key d dir)
    (hs : 32 ≤ (P.pairingSecret svc.cfg).length ∧ 32 ≤ (P.serverSaltKey svc.cfg).length) :
    checkConfig P dir = .ok svc.cfg := by
  simp only [Backup.checkConfig, checkSecret, bind_ok, require_ok, fetch_ok, pure_ok]
  exact ⟨_, ho.config, _, he.config.1, (), hs, (), ⟨_, ho.pairing, decodeString_encodeToString _⟩, (),
    ⟨_, ho.salt, decodeString_encodeToString _⟩, rfl⟩

theorem want_of_count {recipe : Recipe} {table : String} {n : Nat} (hn : d.count table = some n)
    (hw : recipe.want table = (d.count table).map Int.ofNat) : recipe.want table = some (n : Int) := by
  rw [hw, hn]
  rfl

theorem Collected.checkCounts (hc : Collected P svc d p key vapid) :
    forEach (fun _ => checkCount d p.recipe) () tables = .ok () := by
  refine forEach_same fun t ht => ?_
  have ht' := List.mem_append_left auditTables ht
  obtain ⟨n, hn⟩ := Option.isSome_iff_exists.1 (count_isSome d ht')
  have hw : p.recipe.want t = some (n : Int) := want_of_count hn (hc.eq ▸ payload_want ht')
  simp only [checkCount, bind_ok, require_ok, fetch_ok]
  exact ⟨_, hw, (), Int.natCast_nonneg n, by rw [hn]; rfl⟩

theorem Collected.checkAuditCount (hc : Collected P svc d p key vapid) {t : String} (ht : t ∈ auditTables) :
    (p.recipe.want t).isSome ∧ checkAuditCount d p.recipe t = .ok () := by
  have ht' := List.mem_append_right tables ht
  obtain ⟨n, hn⟩ := Option.isSome_iff_exists.1 (count_isSome d ht')
  have hw : p.recipe.want t = some (n : Int) := want_of_count hn (hc.eq ▸ payload_want ht')
  refine ⟨by rw [hw]; rfl, ?_⟩
  simp only [Backup.checkAuditCount, hw, require_ok]
  exact ⟨Int.natCast_nonneg n, by rw [hn]; rfl⟩

/-- The audit tables check out if the reservations do. -/
theorem Collected.checkAudit (hc : Collected P svc d p key vapid) : checkAudit d p.recipe =
    require (verifyCleanupReservations d.db d.slots = true) "cleanup reservations invalid" := by
  obtain ⟨he, hec⟩ := hc.checkAuditCount (t := "audit_events") (.head _)
  obtain ⟨hs, hsc⟩ := hc.checkAuditCount (t := "cleanup_audit_slots") (.tail _ (.head _))
  have hcount : (d.count "cleanup_audit_slots").isNone = false := rfl
  have h1 : require ((p.recipe.want "audit_events").isSome = true ∨ (p.recipe.want "cleanup_audit_slots").isNone = true)
      "ordinary audit count missing" = .ok () := require_ok.2 (.inl he)
  have h2 : require ((d.count "cleanup_audit_slots").isNone = true ∨ (p.recipe.want "cleanup_audit_slots").isSome = true)
      "cleanup audit count missing" = .ok () := require_ok.2 (.inr hs)
  rw [Backup.checkAudit, h1, ok_bind, hec, ok_bind, h2, ok_bind, hsc, ok_bind]
  simp only [hcount, Bool.false_eq_true, false_or]

theorem Opened.checkPin (he : Exact P svc d) (hk : P.loadRecoveryKey d.settings = some key) :
    checkPin P svc.cfg key d = .ok () := by
  simp only [Backup.checkPin, bind_ok, require_ok]
  refine ⟨(), (he.pin key hk).1, ?_⟩
  cases ht : d.settings.value "kyrecovery_token_enc" with
  | none => exact .inl rfl
  | some t => exact he.token t ht

theorem Opened.checkInventory (hc : Collected P svc d p key vapid) (ho : Opened P svc.cfg key d dir) :
    checkInventory dir p.recipe d = .ok () := by
  have hw : p.recipe.want "blobs" = some (d.db.blobs.rows.length : Int) :=
    want_of_count rfl (hc.eq ▸ payload_want (by decide))
  simp only [Backup.checkInventory, bind_ok, require_ok, fetch_ok]
  refine ⟨_, ho.inventory, (), ?_, rfl⟩
  rw [hw, Database.inventory, List.length_map, List.length_mergeSort]

/-- `Checks` of a restored payload is `VerifyCleanupReservations`. -/
theorem checks_collect (he : Exact P svc d) (h : collect P svc d = .ok p) (hdir : dir.Perm p.files) :
    checks P dir p.recipe =
      (require (verifyCleanupReservations d.db d.slots = true) "cleanup reservations invalid").map fun _ => passed d := by
  obtain ⟨key, vapid, hc⟩ := collect_ok he h
  obtain ⟨dir', hjoin, ho⟩ := hc.opened he hdir
  obtain ⟨-, hparse, -⟩ := he.pin key hc.loaded
  have fetch_some : ∀ {α : Type} {o : Option α} {a : α} (e : String), o = some a → fetch o e = .ok a :=
    fun _ h => fetch_ok.2 h
  rw [checks, hc.checkRecipe, ok_bind, hc.checkMembers he hdir, ok_bind, fetch_some _ hjoin, ok_bind,
    ho.checkConfig he hc.secrets, ok_bind, fetch_some _ ho.pin, ok_bind, fetch_some _ hparse, ok_bind,
    fetch_some _ ho.database, ok_bind, fetch_some _ he.snapshot, ok_bind, hc.checkCounts, ok_bind, hc.checkAudit,
    Opened.checkPin he hc.loaded, ho.checkInventory hc]
  cases require (verifyCleanupReservations d.db d.slots = true) "cleanup reservations invalid" <;> rfl

end Restored

end KyNotes.Backup
