import KyNotes.Backup.Restore
import KyNotes.Cleanup.Bijection

/-!
# Every reachable database restores

`Checks` of a restored payload is `VerifyCleanupReservations` (`checks_collect`). The live sources have pending slots in
every state that a server reaches, so that a backup restores if and only if every filled slot is sound. A slot stays as
it was filled: the record that one call wrote decides over every later backup.
-/

namespace KyNotes.Backup

open Relational Check Cleanup

variable {cfg : Config} {e : Encoding} {s : State} {c : Call} {source : Source}

/-- Every slot passes its checks. -/
def Sound (s : State) : Prop := ∀ x ∈ s.slots, x.Sound

/-- The database of a server with its settings. -/
def database (s : State) (settings : Settings) (admins : Nat) : Database := ⟨s.db, s.slots, s.events, settings, admins⟩

/-! ## Calls that fill a slot -/

/-- A deletion or a revocation that goes through. -/
def fills (s : State) (c : Call) : Bool :=
  s.server.store.now < year10000 && match c.op with
    | .deleteComment u id => Live s.db ⟨.comment, id⟩ && (deleteComment s.db u id s.server.store.now).isOk
    | .revokeShareLink u id => (revokeShareLink s.db u id s.server.store.now).isOk
    | _ => false

/-- The request ID of a deletion or a revocation is short once every byte that is no UTF-8 is replaced. -/
def ShortRequest (s : State) (c : Call) : Prop :=
  fills s c = true → Utf8.size (Utf8.text c.requestId) ≤ maxAuditRequestIDBytes

instance (s : State) (c : Call) : Decidable (ShortRequest s c) :=
  inferInstanceAs (Decidable (fills s c = true → Utf8.size (Utf8.text c.requestId) ≤ maxAuditRequestIDBytes))

theorem isOk_iff {ε α : Type} {x : Except ε α} : x.isOk = true ↔ ∃ a, x = .ok a := by
  cases x with
  | error er => exact ⟨fun h => (by cases h), fun ⟨a, h⟩ => (by cases h)⟩
  | ok a => exact ⟨fun _ => ⟨a, rfl⟩, fun _ => rfl⟩

/-- A refused deletion leaves the database as it is. -/
theorem deleteComment_refused (cfg : Config) (e : Encoding) {u : UserId} {id : CommentId} {er : Err} (hop : c.op = .deleteComment u id)
    (h : deleteComment s.db u id s.server.store.now = .error er) : (s.step cfg e c).db = s.db := by
  have ht : slotTx cfg e s c = .ok s.slots := by simp only [slotTx, hop, h]
  rw [step_ok ht, hop, State.db, next_deleteComment, h]
  rfl

theorem revokeShareLink_refused (cfg : Config) (e : Encoding) {u : UserId} {id : LinkId} {er : Err} (hop : c.op = .revokeShareLink u id)
    (h : revokeShareLink s.db u id s.server.store.now = .error er) : (s.step cfg e c).db = s.db := by
  have ht : slotTx cfg e s c = .ok s.slots := by simp only [slotTx, hop, h]
  rw [step_ok ht, hop, State.db, next_revokeShareLink, h]
  rfl

/-- What goes through retires its source. -/
theorem retires_of_fills (cfg : Config) (hm : Matched e s) (h : fills s c = true) : ∃ source actor, c.Retires source actor ∧
    Live s.db source ∧ ¬Live (s.step cfg e c).db source := by
  obtain ⟨hnow, h⟩ := Bool.and_eq_true_iff.1 h
  have hnow : s.server.store.now < year10000 := of_decide_eq_true hnow
  cases hop : c.op
  case deleteComment u id =>
    simp only [hop, Bool.and_eq_true, decide_eq_true_eq] at h
    obtain ⟨p, hp⟩ := isOk_iff.1 h.2
    exact ⟨⟨.comment, id⟩, u, .inl ⟨hop, rfl⟩, h.1, deleteComment_goes hm hop hnow hp⟩
  case revokeShareLink u id =>
    simp only [hop] at h
    obtain ⟨t, ht⟩ := isOk_iff.1 h
    exact ⟨⟨.sealedShareLink, id⟩, u, .inr ⟨hop, rfl⟩, (revokeShareLink_retired ht : _ ∧ Retired _ _ (s.server.next cfg _).store.db).1,
      revokeShareLink_goes hm hop hnow ht⟩
  all_goals
    simp only [hop] at h
    cases h

theorem fills_of_retires {actor : UserId} (hop : c.Retires source actor) (hl : Live s.db source)
    (hd : ¬Live (s.step cfg e c).db source) : fills s c = true := by
  obtain ⟨hnow, -⟩ := (step_effect cfg e s c).fills hop hl hd
  refine Bool.and_eq_true_iff.2 ⟨decide_eq_true hnow, ?_⟩
  obtain ⟨kind, id⟩ := source
  obtain ⟨ho, hk⟩ | ⟨ho, hk⟩ := hop
  · obtain rfl : kind = .comment := hk
    cases hdel : deleteComment s.db actor id s.server.store.now with
    | error er => exact absurd (deleteComment_refused cfg e ho hdel ▸ hl) hd
    | ok p => simp only [ho, hdel, decide_eq_true hl]; rfl
  · obtain rfl : kind = .sealedShareLink := hk
    cases hrev : revokeShareLink s.db actor id s.server.store.now with
    | error er => exact absurd (revokeShareLink_refused cfg e ho hrev ▸ hl) hd
    | ok t => simp only [ho, hrev]; rfl

/-! ## Sound slots -/

theorem cleanupSlotBytes_sound (e : Encoding) : cleanupSlotBytes e ≠ 0 ∧ cleanupSlotBytes e % 64 = 0 := by
  cases e <;> decide

/-- A pending slot is sound. -/
theorem pending_sound {x : Slot} (hm : Matched e s) (hx : x ∈ s.slots) (hr : x.record = none) : x.Sound := by
  refine ⟨hm.size x hx ▸ cleanupSlotBytes_sound e, fun r h => ?_⟩
  rw [hr] at h
  cases h

/-- A filled slot is sound if its request is short. -/
theorem filled_sound {x : Slot} (actor : UserId) (request : Bytes) {now : Stamp} (hm : Matched e s) (hx : x ∈ s.slots)
    (hnow : now < year10000) :
    (x.filled actor request now).Sound ↔ Utf8.size (Utf8.text request) ≤ maxAuditRequestIDBytes := by
  constructor
  · exact fun h => (h.2 _ rfl).1
  · intro h
    refine ⟨hm.size x hx ▸ cleanupSlotBytes_sound e, fun r hr => ?_⟩
    cases hr
    exact ⟨h, hnow⟩

theorem sound_step (hm : Matched e s) : Sound (s.step cfg e c) ↔ Sound s ∧ ShortRequest s c := by
  have heff := step_effect cfg e s c
  have hm' : Matched e (s.step cfg e c) := heff.matched hm
  by_cases hf : fills s c = true
  · obtain ⟨source, actor, hop, hl, hd⟩ := retires_of_fills cfg hm hf
    obtain ⟨hnow, x, hx, hr, -, ht⟩ := heff.fills hop hl hd
    have hxm := Table.get_mem hx
    have hiff := filled_sound actor c.requestId hm hxm hnow
    rw [Sound, ht]
    constructor
    · intro h
      refine ⟨fun y hy => ?_, fun _ => hiff.1 (h _ ((mem_filled hx).2 (.inr rfl)))⟩
      by_cases hyx : y = x
      · exact hyx ▸ pending_sound hm hxm hr
      · exact h y ((mem_filled hx).2 (.inl ⟨hy, hyx⟩))
    · rintro ⟨h, hc⟩ y hy
      obtain ⟨hy, -⟩ | rfl := (mem_filled hx).1 hy
      · exact h y hy
      · exact hiff.2 (hc hf)
  · have hn : ¬∃ source actor, c.Retires source actor ∧ Live s.db source ∧ ¬Live (s.step cfg e c).db source :=
      fun ⟨source, actor, hop, hl, hd⟩ => hf (fills_of_retires hop hl hd)
    constructor
    · refine fun h => ⟨fun x hx => ?_, fun h => absurd h hf⟩
      by_cases hr : x.record = none
      · exact pending_sound hm hx hr
      · exact h x (heff.filled_kept hx hr)
    · rintro ⟨h, -⟩ x hx
      by_cases hr : x.record = none
      · exact pending_sound hm' hx hr
      · exact h x (heff.none_filled hn hx hr)

theorem verify_iff (hm : Matched e s) : verifyCleanupReservations s.db s.slots = true ↔ Sound s := by
  rw [verifyCleanupReservations, decide_eq_true_eq]
  refine ⟨And.left, fun h => ⟨h, fun c hc hd => ?_, fun l hl hd => ?_⟩⟩
  · exact (hm.live ⟨.comment, c.id⟩).1 ⟨c, hc, rfl, hd⟩
  · exact (hm.live ⟨.sealedShareLink, l.id⟩).1 ⟨l, hl, rfl, hd⟩

theorem verify_reach (cfg : Config) (e : Encoding) (cs : List Call) :
    verifyCleanupReservations (State.reach cfg e cs).db (State.reach cfg e cs).slots = true ↔
      Transition.Along (State.step cfg e) ShortRequest State.init cs := by
  have h0 : Sound State.init := fun x hx => absurd hx (Table.not_mem_empty x)
  rw [verify_iff (reach_matched cfg e cs), State.reach, State.run,
    Transition.run_iff_along (fun _ _ h => step_matched h) (fun _ _ hm => sound_step hm) (matched_init e)]
  exact and_iff_right h0

/-! ## Restores -/

/-- The restored directory passes `Checks`: the parts rejoin, the counts and the inventory match, the reservations
verify. -/
structure Accepted (P : Packages) (d : Database) (p : Payload) (dir : List File) : Prop where
  passes : checks P dir p.recipe = .ok (passed d)
  rejoins : (p.recipe.sqlitePaths.mapM (readFile dir)).map List.flatten = some (P.sqliteSnapshot d)
  counts : ∀ t ∈ tables ++ auditTables, p.recipe.want t = (d.count t).map Int.ofNat
  inventory : readInventory dir inventoryMember = some d.inventory
  reservations : verifyCleanupReservations d.db d.slots = true

theorem accepted_iff {P : Packages} {svc : Service P} {d : Database} {p : Payload} {dir : List File} (he : Exact P svc d)
    (h : collect P svc d = .ok p) (hdir : dir.Perm p.files) :
    Accepted P d p dir ↔ verifyCleanupReservations d.db d.slots = true := by
  refine ⟨Accepted.reservations, fun hv => ?_⟩
  obtain ⟨key, vapid, hc⟩ := collect_ok he h
  have hinv : ⟨inventoryMember, .inventory d.inventory, 0o600⟩ ∈ dir :=
    hc.other hdir _ (.tail _ (.tail _ (.tail _ (.tail _ (.head _)))))
  refine ⟨?_, ?_, fun t ht => hc.eq ▸ payload_want ht, readInventory_of_mem (hc.nodup hdir) hinv, hv⟩
  · rw [checks_collect he h hdir, (require_ok (u := ())).2 hv]
    rfl
  · rw [hc.parts hdir, Option.map_some]
    exact congrArg some (Split.flatten_parts he.limits.1 _)

/-- A backup of the state that a run of calls reaches, restored byte for byte, passes `Checks` exactly when every
deletion and revocation of the run that went through had a request ID of at most 128 bytes after the replacement of the
bytes that are no UTF-8. -/
theorem restore_accepts_iff (cfg : Config) (e : Encoding) (cs : List Call) (settings : Settings) (admins : Nat)
    {P : Packages} {svc : Service P} {p : Payload} {dir : List File}
    (he : Exact P svc (database (State.reach cfg e cs) settings admins))
    (h : collect P svc (database (State.reach cfg e cs) settings admins) = .ok p) (hdir : dir.Perm p.files) :
    Accepted P (database (State.reach cfg e cs) settings admins) p dir ↔
      Transition.Along (State.step cfg e) ShortRequest State.init cs :=
  (accepted_iff he h hdir).trans (verify_reach cfg e cs)

/-! ## A backup of a deleted comment -/

def sampleSnapshot : Bytes := List.replicate 500 1

/-- The packages of a server with one database: its snapshot is 500 bytes, in files of 200. -/
def samplePackages (d : Database) : Packages where
  maxFileBytes := 200
  maxExpandedBytes := 1000
  sqliteSnapshot _ := sampleSnapshot
  openDatabase b := if b = sampleSnapshot then some d else none
  Config := Unit
  pairingSecret _ := List.replicate 32 2
  serverSaltKey _ := List.replicate 32 3
  yamlMarshal _ := [4]
  yamlUnmarshal b := if b = [4] then some () else none
  PublicKey := Unit
  publicBytes _ := [5]
  parsePublicKey b := if b = [5] then some () else none
  keyID _ := "key"
  loadRecoveryKey settings := if settings.value "kyrecovery_key_id" = some "key" then some () else none
  openToken _ _ := none

def sampleSettings : Settings := [("kyrecovery_key_id", "key")]

def sampleService (d : Database) : Service (samplePackages d) := ⟨(), none⟩

/-- The database after a comment is deleted under a request ID. -/
def deletedUnder (header : Bytes) : Database :=
  database (State.reach sampleConfig .utf8 (commentCalls ++ [trustedCall header (.deleteComment 0 6)])) sampleSettings 1

theorem sample_exact {d : Database} (h : d.settings = sampleSettings) : Exact (samplePackages d) (sampleService d) d where
  limits := by
    simp only [samplePackages]
    omega
  snapshot := by simp only [samplePackages, if_true]
  config := by
    simp only [samplePackages, if_true]
    exact ⟨rfl, List.cons_ne_nil _ _⟩
  pin key _ := by
    simp only [samplePackages, if_true, h]
    exact ⟨rfl, rfl, List.cons_ne_nil _ _⟩
  token t ht := by simp [h, sampleSettings, Settings.value] at ht

/-- Under one byte that is no UTF-8 the payload is collected and its restore passes. -/
theorem restore_accepts_short : ∃ p, collect (samplePackages (deletedUnder [0xff])) (sampleService _) (deletedUnder [0xff]) =
    .ok p ∧ Accepted (samplePackages (deletedUnder [0xff])) (deletedUnder [0xff]) p p.files := by
  obtain ⟨p, hp⟩ := isOk_iff.1
    (show (collect (samplePackages (deletedUnder [0xff])) (sampleService _) (deletedUnder [0xff])).isOk = true by
      decide +kernel)
  exact ⟨p, hp, (restore_accepts_iff _ _ _ _ _ (sample_exact rfl) hp (List.Perm.refl _)).2 (by decide +kernel)⟩

/-- 43 such bytes are an admitted request ID; the payload is collected, and its restore fails. -/
theorem restore_refuses_long :
    (trustedCall (List.replicate 43 0xff) (.deleteComment 0 6)).requestId = List.replicate 43 0xff ∧
    ∃ p, collect (samplePackages (deletedUnder (List.replicate 43 0xff))) (sampleService _)
      (deletedUnder (List.replicate 43 0xff)) = .ok p ∧
      checks (samplePackages (deletedUnder (List.replicate 43 0xff))) p.files p.recipe =
        .error "cleanup reservations invalid" := by
  obtain ⟨p, hp⟩ := isOk_iff.1 (show (collect (samplePackages (deletedUnder (List.replicate 43 0xff))) (sampleService _)
    (deletedUnder (List.replicate 43 0xff))).isOk = true by decide +kernel)
  refine ⟨by decide, p, hp, ?_⟩
  have hv : ¬verifyCleanupReservations (deletedUnder (List.replicate 43 0xff)).db
      (deletedUnder (List.replicate 43 0xff)).slots = true := by decide +kernel
  rw [checks_collect (sample_exact rfl) hp (List.Perm.refl _), require_error.2 ⟨hv, rfl⟩]
  rfl

end KyNotes.Backup
