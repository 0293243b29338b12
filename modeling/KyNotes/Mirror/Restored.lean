import KyNotes.Mirror.Sync

/-!
# What was mirrored is recovered

Where every operation on the files succeeds and a target serves its objects (`Serves`), `Fetch` recovers each row that the target
holds, whatever the local files are (`fetch_served`). With the runs of the system, a `Sync` without an error is enough for that at
any later time (`synced_recovers`).
-/

namespace KyNotes.Mirror

open Interaction Transition

/-- The operations on the files, the database and the context. -/
def Req.isLocal : Req → Bool
  | .get _ | .copy _ => false
  | _ => true

/-- Every operation on the files succeeds, and the objects of a target are read. The time tells which object is open. -/
structure Serves (f : Oracle Req fun r => Except Err (Val r)) (objects : String → Option Bytes) (reader : ℕ → String) : Prop where
  locals : ∀ t op, op.isLocal = true → ∃ v, f t op = (.ok v, t)
  get : ∀ t name content, objects name = some content → ∃ j, f t (.get name) = (.ok (), j) ∧ reader j = name
  copy : ∀ t limit content, objects (reader t) = some content → f t (.copy limit) = (.ok (content.take limit), t)

section Served

variable {f : Oracle Req fun r => Except Err (Val r)} {objects : String → Option Bytes} {reader : ℕ → String}
  {sha256 : Bytes → String} {b : Blob} {s : Store} {t : ℕ}

theorem on_request (hf : Serves f objects reader) {op : Req} (hop : op.isLocal = true) :
    Action.On f (request op) (fun u j _ => u = s ∧ j = t) (fun _ _ _ => False) s t := by
  obtain ⟨v, hv⟩ := hf.locals t op hop
  exact .call hv ⟨rfl, rfl⟩

theorem on_localOp (hf : Serves f objects reader) {op : Req} (hop : op.isLocal = true) :
    Action.On f (localOp op) (fun u j _ => u = s ∧ j = t) (fun _ _ _ => False) s t := by
  refine Action.On.try (fun u j out => u = s ∧ j = t ∧ ∃ v, out = .ok v) ?_ fun u j out ⟨hu, hj, v, hout⟩ => ?_
  · obtain ⟨v, hv⟩ := hf.locals t op hop
    exact .call hv ⟨rfl, rfl, v, rfl⟩
  · subst hu hj hout
    exact .pure ⟨rfl, rfl⟩

/-- A file is opened, or it is absent or corrupt. -/
theorem on_openBlob (hf : Serves f objects reader) (d : String) : Action.On f (openBlob sha256 d)
    (fun u j n => u = s ∧ j = t ∧ ∃ content, s.files d = some content ∧ content.length = n)
    (fun u j e => u = s ∧ j = t ∧ (e = .notExist ∨ e = .corrupt)) s t := by
  unfold openBlob
  split
  · exact .fail ⟨rfl, rfl, .inl rfl⟩
  · refine Action.On.bind (on_localOp hf rfl) (fun _ _ _ => False.elim) fun u j _ ⟨hu, hj⟩ => ?_
    subst hu hj
    refine Action.On.look ?_
    cases hfile : u.files d with
    | none => exact .fail ⟨rfl, rfl, .inl rfl⟩
    | some content =>
      refine Action.On.bind (on_localOp hf rfl) (fun _ _ _ => False.elim) fun u j _ ⟨hu, hj⟩ => ?_
      subst hu hj
      split
      · exact .fail ⟨rfl, rfl, .inr rfl⟩
      · exact .pure ⟨rfl, rfl, content, rfl, rfl⟩

/-- The file of the name is absent, or its bytes hash to the name. -/
def Clear (sha256 : Bytes → String) (d : String) (s : Store) : Prop := ∀ content, s.files d = some content → sha256 content = d

theorem on_clear (hf : Serves f objects reader) (hname : isName b.digest = true) : Action.On f (clear sha256 b)
    (fun u j _ => Clear sha256 b.digest u ∧ j = t) (fun _ _ _ => False) s t := by
  have hnot : ¬(!isName b.digest) = true := by rw [hname]; exact Bool.false_ne_true
  have hstat : Action.On f (statBlob b.digest) (fun u j size => u = s ∧ j = t ∧ size = (s.files b.digest).map List.length)
      (fun _ _ _ => False) s t := by
    unfold statBlob
    rw [if_neg hnot]
    refine Action.On.bind (on_localOp hf rfl) (fun _ _ _ => False.elim) fun u j _ ⟨hu, hj⟩ => ?_
    subst hu hj
    exact (show Action.On f (Action.read _) _ _ u j from (⟨rfl, rfl, rfl⟩ : u = u ∧ j = j ∧ _ = _))
  refine Action.On.bind hstat (fun _ _ _ => False.elim) fun u j size ⟨hu, hj, hsize⟩ => ?_
  subst hu hj hsize
  cases hfile : u.files b.digest with
  | none => exact .pure ⟨fun content hc => absurd (hfile.symm.trans hc) (by simp), rfl⟩
  | some content =>
    refine Action.On.try (fun v j' out => v = u ∧ j' = j ∧ ((∃ n, out = .ok n) ∧ sha256 content = b.digest ∨ out = .error .corrupt)) ?_
      fun v j' out ⟨hv, hj, hout⟩ => ?_
    · unfold openBlob
      rw [if_neg hnot]
      refine Action.On.bind (on_localOp hf rfl) (fun _ _ _ => False.elim) fun v j _ ⟨hv, hj⟩ => ?_
      subst hv hj
      refine Action.On.look ?_
      rw [hfile]
      refine Action.On.bind (on_localOp hf rfl) (fun _ _ _ => False.elim) fun w j _ ⟨hw, hj⟩ => ?_
      subst hw hj
      split
      · exact .fail ⟨rfl, rfl, .inr rfl⟩
      · next hsha => exact .pure ⟨rfl, rfl, .inl ⟨⟨_, rfl⟩, not_not.mp hsha⟩⟩
    · subst hv hj
      rcases hout with ⟨⟨n, rfl⟩, hsha⟩ | rfl
      · exact .pure ⟨fun old hold => by rw [hfile] at hold; exact Option.some.inj hold ▸ hsha, rfl⟩
      · dsimp only
        rw [if_pos rfl, deleteBlob, if_neg hnot]
        refine Action.On.bind (on_localOp hf rfl) (fun _ _ _ => False.elim) fun w j _ ⟨hw, hj⟩ => ?_
        subst hw hj
        refine .modify ⟨fun old hold => ?_, rfl⟩
        rw [Store.remove, hfile] at hold
        exact absurd (hold.symm.trans (if_pos rfl)) (Option.some_ne_none old)

theorem on_install (hf : Serves f objects reader) (d : String) (data : Bytes) :
    Action.On f (install d data) (fun _ j _ => j = t) (fun _ _ _ => False) s t := by
  refine Action.On.bind (on_localOp hf rfl) (fun _ _ _ => False.elim) fun u j _ ⟨hu, hj⟩ => ?_
  subst hu hj
  refine Action.On.bind (E := fun _ _ _ => False) (Action.On.modify (Q := fun v j' _ => j' = j) rfl) (fun _ _ _ => False.elim)
    fun v j' _ hj => ?_
  subst hj
  refine Action.On.try (fun w k out => w = v ∧ k = j' ∧ ∃ x, out = .ok x)
    ((on_localOp hf rfl).mono (fun w k x h => ⟨h.1, h.2, x, rfl⟩) fun _ _ _ => False.elim) fun w k out ⟨hw, hk, x, hout⟩ => ?_
  subst hw hk hout
  refine Action.On.bind (on_localOp hf rfl) (fun _ _ _ => False.elim) fun w' k' _ ⟨hw, hk⟩ => ?_
  exact .pure hk

/-- A verified file is put in the place of none, or finds one with its hash and its size. -/
theorem on_finalize (hf : Serves f objects reader) {data : Bytes} (hsha : sha256 data = b.digest) (hname : isName b.digest = true)
    (hclear : ∀ content, s.files b.digest = some content → sha256 content = b.digest ∧ content.length = data.length) :
    Action.On f (finalize sha256 data b.digest) (fun _ j _ => j = t) (fun _ _ _ => False) s t := by
  unfold finalize
  refine Action.On.bind (on_localOp hf rfl) (fun _ _ _ => False.elim) fun u j _ ⟨hu, hj⟩ => ?_
  subst hu hj
  dsimp only
  rw [hsha, if_neg fun h => h.2 rfl]
  refine Action.On.bind (on_localOp hf rfl) (fun _ _ _ => False.elim) fun v j _ ⟨hv, hj⟩ => ?_
  subst hv hj
  refine Action.On.try (fun w k out => w = v ∧ k = j ∧ ∃ x, out = .ok x)
    ((on_localOp hf rfl).mono (fun w k x h => ⟨h.1, h.2, x, rfl⟩) fun _ _ _ => False.elim) fun w k out ⟨hw, hk, x, hout⟩ => ?_
  subst hw hk hout
  refine Action.On.look ?_
  cases hfile : w.files b.digest with
  | none => exact on_install hf _ _
  | some content =>
    obtain ⟨hgood, hlength⟩ := hclear content hfile
    dsimp only
    rw [if_neg fun h => h hlength]
    refine Action.On.try (fun u j out => j = k ∧ ∃ n, out = .ok n) ?_ fun u j out ⟨hj, n, hout⟩ => ?_
    · unfold openBlob
      rw [if_neg (by rw [hname]; exact Bool.false_ne_true)]
      refine Action.On.bind (on_localOp hf rfl) (fun _ _ _ => False.elim) fun v j _ ⟨hv, hj⟩ => ?_
      subst hv hj
      refine Action.On.look ?_
      rw [hfile]
      refine Action.On.bind (on_localOp hf rfl) (fun _ _ _ => False.elim) fun v j _ ⟨hv, hj⟩ => ?_
      subst hv hj
      rw [if_neg fun h => h hgood]
      exact .pure ⟨rfl, _, rfl⟩
    · subst hout
      exact .pure hj

/-- The bytes of the object are received. -/
theorem on_receive (hf : Serves f objects reader) {content : Bytes} (hobject : objects ("blobs/" ++ b.digest) = some content)
    (hlength : (content.length : ℤ) = b.size) :
    Action.On f (receive b) (fun u _ bytes => u = s ∧ bytes = content) (fun _ _ _ => False) s t := by
  obtain ⟨j, hget, hreader⟩ := hf.get t _ content hobject
  refine Action.On.bind (E := fun _ _ _ => False) (Action.On.call (Q := fun u i _ => u = s ∧ i = j) hget ⟨rfl, rfl⟩)
    (fun _ _ _ => False.elim) fun u i _ ⟨hu, hi⟩ => ?_
  subst hu hi
  refine Action.On.bind (on_request hf rfl) (fun _ _ _ => False.elim) fun v i' _ ⟨hv, hi⟩ => ?_
  subst hv hi
  have hcopy : f i' (.copy (b.size.toNat + 1)) = (.ok (content.take (b.size.toNat + 1)), i') :=
    hf.copy i' _ content (by rw [hreader]; exact hobject)
  dsimp only
  refine Action.On.try (fun w k out => w = v ∧ out = .ok (content.take (b.size.toNat + 1))) (.call hcopy ⟨rfl, rfl⟩)
    fun w k out ⟨hw, hout⟩ => ?_
  subst hw hout
  refine Action.On.try (fun x _ out => x = w ∧ out = .ok ()) ((on_request hf rfl).mono (fun _ _ _ h => ⟨h.1, rfl⟩) fun _ _ _ => False.elim)
    fun x k out ⟨hx, hout⟩ => ?_
  subst hx hout
  have hall : (content.take (b.size.toNat + 1)).take (b.size.toNat + 1) = content := by
    have hle : content.length ≤ b.size.toNat + 1 := by omega
    rw [List.take_of_length_le hle, List.take_of_length_le hle]
  exact .pure ⟨rfl, hall⟩

theorem isName_of_valid (h : valid b = true) : isName b.digest = true := by
  obtain ⟨hlength, hhex, -⟩ := of_decide_eq_true h
  refine decide_eq_true ⟨hlength, List.all_eq_true.mpr fun c hc => ?_⟩
  rw [isHex, List.all_eq_true.mp hhex c hc]
  rfl

/-- A file with the digest of a row has its size. -/
def NoCollision (sha256 : Bytes → String) (b : Blob) (s : Store) : Prop :=
  ∀ content, s.files b.digest = some content → sha256 content = b.digest → (content.length : ℤ) = b.size

/-- A file is one that was there, or one that was installed for the row. -/
theorem replay_origin {d : String} {content : Bytes} (cs : List Change) : ∀ {files : String → Option Bytes},
    (∀ c ∈ cs, ∃ b' ∈ [b], c.Harmless sha256 b') → replay files cs d = some content →
      files d = some content ∨ d = b.digest ∧ (content.length : ℤ) = b.size := by
  induction cs with
  | nil => exact fun _ h => .inl h
  | cons c cs ih =>
    intro files hharmless h
    rw [List.forall_mem_cons] at hharmless
    obtain ⟨⟨b', hb', hc⟩, hharmless⟩ := hharmless
    rw [List.mem_singleton] at hb'
    subst hb'
    rcases ih hharmless h with hfile | hnew
    · cases c with
      | removed d' old =>
        by_cases hd : d = d'
        · exact absurd ((if_pos hd).symm.trans hfile) (Option.some_ne_none content).symm
        · exact .inl ((if_neg hd).symm.trans hfile)
      | installed d' new =>
        by_cases hd : d = d'
        · obtain rfl : new = content := Option.some.inj ((if_pos hd).symm.trans hfile)
          exact .inr ⟨hd.trans hc.1, hc.2.2⟩
        · exact .inl ((if_neg hd).symm.trans hfile)
    · exact .inr hnew

theorem NoCollision.ran {b' : Blob} {u : Store} (h : NoCollision sha256 b s) (hran : Ran sha256 [b'] s u)
    (hsame : b'.digest = b.digest → b'.size = b.size) : NoCollision sha256 b u := by
  obtain ⟨cs, -, hfiles, -, hharmless⟩ := hran
  intro content hfile hsha
  rw [hfiles] at hfile
  rcases replay_origin cs hharmless hfile with hold | ⟨hd, hlength⟩
  · exact h content hold hsha
  · exact hlength.trans (hsame hd.symm)

theorem on_fetch (hf : Serves f objects reader) {content : Bytes} (hvalid : valid b = true)
    (hobject : objects ("blobs/" ++ b.digest) = some content) (hsha : sha256 content = b.digest)
    (hlength : (content.length : ℤ) = b.size) (hno : NoCollision sha256 b s) :
    Action.On f (fetch sha256 b) (fun _ _ _ => True) (fun _ _ _ => False) s t := by
  have hname := isName_of_valid hvalid
  refine Action.On.bind (on_receive hf hobject hlength) (fun _ _ _ => False.elim) fun u j bytes ⟨hu, hbytes⟩ => ?_
  subst hu hbytes
  rw [if_neg fun h => h.elim (fun h => h hlength) fun h => h hsha]
  have hclear : Action.On f (clear sha256 b) (fun v _ _ => Clear sha256 b.digest v ∧ Ran sha256 [b] u v) (fun _ _ _ => False) u j := by
    have hsafe : Safe (clear sha256 b) (fun v _ => Ran sha256 [b] u v) (fun v _ => Ran sha256 [b] u v) u := safe_clear
    have hon : Action.On f (clear sha256 b) (fun v k _ => Clear sha256 b.digest v ∧ k = j) (fun _ _ _ => False) u j :=
      on_clear hf hname
    exact (hon.safe hsafe).mono (fun _ _ _ h => ⟨h.1.1, h.2⟩) fun _ _ _ h => h.1
  refine Action.On.bind hclear (fun _ _ _ => False.elim) fun v k _ ⟨hv, hran⟩ => ?_
  have hfile : ∀ old, v.files b.digest = some old → sha256 old = b.digest ∧ old.length = bytes.length := by
    intro old hold
    have hsize := hno.ran hran (fun _ => rfl) old hold (hv old hold)
    exact ⟨hv old hold, by omega⟩
  refine Action.On.bind (on_finalize hf hsha hname hfile) (fun _ _ _ => False.elim) fun w i _ _ => ?_
  exact .pure trivial

/-- What the target has of the rows. -/
def Offers (objects : String → Option Bytes) (sha256 : Bytes → String) (b : Blob) : Prop :=
  ∃ content, objects ("blobs/" ++ b.digest) = some content ∧ sha256 content = b.digest ∧ (content.length : ℤ) = b.size

theorem on_fetchRow (hf : Serves f objects reader) (hvalid : valid b = true) (hoffers : Offers objects sha256 b)
    (hno : NoCollision sha256 b s) (stats : Stats) : Action.On f (fetchRow sha256 b stats)
      (fun _ _ stats' => stats'.failed = stats.failed ∧ stats'.missing = stats.missing) (fun _ _ _ => False) s t := by
  obtain ⟨content, hobject, hsha, hlength⟩ := hoffers
  have hrepair : ∀ u j, u = s → Action.On f (repair sha256 b stats)
      (fun _ _ stats' => stats'.failed = stats.failed ∧ stats'.missing = stats.missing) (fun _ _ _ => False) u j := by
    rintro u j rfl
    refine Action.On.try (fun _ _ out => out = .ok ()) ((on_fetch hf hvalid hobject hsha hlength hno).mono (fun _ _ _ _ => rfl)
      fun _ _ _ => False.elim) fun v k out hout => ?_
    subst hout
    exact .pure ⟨rfl, rfl⟩
  unfold fetchRow
  rw [if_neg (by rw [hvalid]; exact Bool.false_ne_true)]
  refine Action.On.try (fun u j out => u = s ∧ ∀ e, out = .error e → e = .notExist ∨ e = .corrupt)
    ((on_openBlob hf b.digest).mono (fun u j n h => ⟨h.1, nofun⟩) fun u j e h => ⟨h.1, fun e' he => ?_⟩) fun u j out ⟨hu, hout⟩ => ?_
  · cases he
    exact h.2.2
  · cases out with
    | ok n =>
      dsimp only
      split
      · exact .pure ⟨rfl, rfl⟩
      · exact hrepair u j hu
    | error e =>
      dsimp only
      rw [if_neg fun h => (hout e rfl).elim h.1 h.2]
      exact hrepair u j hu

theorem on_fetchRows (hf : Serves f objects reader) (rows : List Blob) : ∀ {s : Store} {t : ℕ} (stats : Stats),
    (rows.map Blob.digest).Nodup → stats.failed = 0 → stats.missing = 0 →
      (∀ b ∈ rows, valid b = true ∧ Offers objects sha256 b ∧ NoCollision sha256 b s) →
        Action.On f (fetchRows sha256 rows stats) (fun _ _ out => out.2 = none) (fun _ _ _ => False) s t := by
  induction rows with
  | nil =>
    intro s t stats _ hfailed hmissing _
    have herr : stats.err = none := if_neg (by omega)
    exact .pure herr
  | cons b rows ih =>
    intro s t stats hkey hfailed hmissing hrows
    rw [List.map_cons, List.nodup_cons] at hkey
    rw [List.forall_mem_cons] at hrows
    obtain ⟨⟨hvalid, hoffers, hno⟩, hrows⟩ := hrows
    refine Action.On.try (fun u j out => u = s ∧ ∃ v, out = .ok v)
      ((on_request hf rfl).mono (fun u j v h => ⟨h.1, v, rfl⟩) fun _ _ _ => False.elim) fun u j out ⟨hu, v, hout⟩ => ?_
    subst hu hout
    have hrow : Action.On f (fetchRow sha256 b stats)
        (fun w _ stats' => (stats'.failed = stats.failed ∧ stats'.missing = stats.missing) ∧ Ran sha256 [b] u w) (fun _ _ _ => False)
        u j := by
      have hsafe : Safe (fetchRow sha256 b stats) _ _ u := safe_fetchRow stats
      have hon : Action.On f (fetchRow sha256 b stats) _ _ u j := on_fetchRow hf hvalid hoffers hno stats
      exact (hon.safe hsafe).mono (fun _ _ _ h => ⟨h.1, h.2.1⟩) fun _ _ _ h => h.1
    refine Action.On.bind hrow (fun _ _ _ => False.elim) fun w k stats' ⟨⟨hsame, hsame'⟩, hran⟩ => ?_
    refine ih stats' hkey.2 (hsame.trans hfailed) (hsame'.trans hmissing) fun b' hb' => ?_
    obtain ⟨hvalid', hoffers', hno'⟩ := hrows b' hb'
    exact ⟨hvalid', hoffers', hno'.ran hran fun hd => absurd (hd ▸ List.mem_map_of_mem hb') hkey.1⟩

variable (sha256) in
/-- A target that serves each row has every row recovered. -/
theorem fetch_served (hf : Serves f objects reader) (inventory : Inventory) (s : Store)
    (hrows : ∀ b ∈ inventory.rows, valid b = true ∧ Offers objects sha256 b ∧ NoCollision sha256 b s) :
    ∃ stats, (eval f 0 (Fetch sha256 inventory.rows s)).2.2.2 = .ok (stats, none) ∧
      ∀ b ∈ inventory.rows, Good sha256 b (eval f 0 (Fetch sha256 inventory.rows s)).2.2.1 := by
  have hon : Action.On f (Fetch sha256 inventory.rows) (fun _ _ out => out.2 = none) (fun _ _ _ => False) s 0 := by
    refine Action.On.try (fun u j out => u = s ∧ ∃ v, out = .ok v)
      ((on_request hf rfl).mono (fun u j v h => ⟨h.1, v, rfl⟩) fun _ _ _ => False.elim) fun u j out ⟨hu, v, hout⟩ => ?_
    subst hu hout
    exact on_fetchRows hf inventory.rows {} inventory.key rfl rfl hrows
  have hFetch : Safe (Fetch sha256 inventory.rows) _ _ s := safe_Fetch inventory
  have hsafe := (hFetch 0).runs (runs_any f 0 _)
  rw [Action.On] at hon
  generalize (eval f 0 (Fetch sha256 inventory.rows s)).2 = out at hon hsafe ⊢
  obtain ⟨k, w, e | ⟨stats, err⟩⟩ := out
  · exact hon.elim
  · have herr : err = none := hon
    exact ⟨stats, by rw [herr], hsafe.2 herr⟩

end Served

/-- In every run of the system, with restores of the database in between, a `Sync` that returns without an error has counted every
row as uploaded or skipped and leaves none pending. From then on, whatever has become of the local files, `Fetch` with operations
that succeed recovers each row from that target. -/
theorem synced_recovers {τ : Type} (T : Target τ) (objects : τ → String → Option Bytes) (hT : WriteOnce T objects)
    (sha256 : Bytes → String) (size : String → ℤ) (w : World τ) (hnone : ∀ replicas ∈ w.replicas :: w.backups, ∀ d, replicas d = none)
    (as bs : List Op) (key : String) (inventory : Inventory) (answers : Answers)
    (h : Along (World.step T sha256) (Sized size) w (as ++ .sync key inventory.rows answers :: bs)) (stats : SyncStats)
    (hok : ((run (World.step T sha256) w as).synced T sha256 key inventory.rows answers).2 = .ok (stats, none)) :
    (stats.uploaded + stats.skipped = inventory.rows.length ∧
      pending inventory.rows (run (World.step T sha256) w (as ++ [.sync key inventory.rows answers])).replicas key = 0) ∧
    ∀ (f : Oracle Req fun r => Except Err (Val r)) (reader : ℕ → String) (s : Store),
      Serves f (objects ((run (World.step T sha256) w (as ++ .sync key inventory.rows answers :: bs)).targets key)) reader →
      (∀ b ∈ inventory.rows, NoCollision sha256 b s) →
        ∃ stats', (eval f 0 (Fetch sha256 inventory.rows s)).2.2.2 = .ok (stats', none) ∧
          ∀ b ∈ inventory.rows, Good sha256 b (eval f 0 (Fetch sha256 inventory.rows s)).2.2.1 := by
  obtain ⟨hcount, hpending, hheld⟩ := synced_stays hT hnone h hok
  refine ⟨⟨hcount, hpending⟩, fun f reader s hf hno => ?_⟩
  exact fetch_served sha256 hf inventory s fun b hb => ⟨(hheld b hb).1, (hheld b hb).2, hno b hb⟩

/-! ## One object -/

def sampleName : String := "blobs/" ++ sampleDigest

/-- A target for one object, which is never replaced. -/
def oneObject : Target (Option Bytes) where
  put t name content :=
    if name = sampleName then
      match t with
      | none => (some content, .ok ())
      | some _ => (t, .error .exists)
    else (t, .error (.other .other))
  get t name :=
    if name = sampleName then
      match t with
      | some content => (t, .ok content)
      | none => (t, .error .notExist)
    else (t, .error .notExist)

def oneObjects (t : Option Bytes) (name : String) : Option Bytes := if name = sampleName then t else none

theorem oneObject_writeOnce : WriteOnce oneObject oneObjects where
  put_ok t name content h := by
    unfold oneObject oneObjects at *
    dsimp only at *
    split at h
    · next hname =>
      rw [if_pos hname, if_pos hname]
      cases t with
      | none => rfl
      | some old => cases h
    · cases h
  put_keeps t name content name' old h := by
    unfold oneObject oneObjects at *
    dsimp only at *
    split at h
    · next hname =>
      subst h
      rw [if_pos hname]
      split
      · rfl
      · rfl
    · cases h
  get_ok t name content h := by
    unfold oneObject oneObjects at *
    dsimp only at *
    split at h
    · next hname =>
      rw [if_pos hname]
      cases t with
      | none => cases h
      | some old =>
        cases h
        rfl
    · cases h
  get_keeps t name name' old h := by
    unfold oneObject
    dsimp only
    split
    · cases t with
      | none => exact h
      | some content => exact h
    · exact h

/-- Every operation of `Sync` succeeds. -/
def allWell : Answers := fun t r =>
  (match r with
    | .inl r => (sampleTarget t r).1
    | .inr _ => .ok (), t)

/-- The file is there, and nothing is mirrored. -/
def sampleWorld : World (Option Bytes) where
  store := ⟨fun d => if d = sampleDigest then some [104, 105] else none, []⟩
  replicas _ := none
  targets _ := none

/-- Every operation succeeds, and a copy gives the object. -/
def serving (t : Option Bytes) : Oracle Req fun r => Except Err (Val r) := fun i r =>
  (match r with
    | .copy limit => .ok ((t.getD []).take limit)
    | .list | .context | .openFile _ | .readFile _ | .stat _ | .remove _ | .get _ | .newTemp | .close | .sync | .mkdir _ | .rename _
    | .openDir _ | .syncDir _ => .ok (), i)

theorem serving_serves (t : Option Bytes) : Serves (serving t) (oneObjects t) fun _ => sampleName where
  locals i op hop := by
    cases op with
    | get | copy => cases hop
    | list | context | openFile | readFile | stat | remove | newTemp | close | sync | mkdir | rename | openDir | syncDir =>
      exact ⟨(), rfl⟩
  get i name content h := by
    unfold oneObjects at h
    split at h
    · next hname => exact ⟨i, rfl, hname.symm⟩
    · cases h
  copy i limit content h := by
    have ht : t = some content := (if_pos rfl).symm.trans h
    subst ht
    rfl

/-- What was mirrored before the file was cut short and the database was emptied is recovered. -/
theorem synced_recovers_truncated :
    let ops := [Op.sync "t" sampleInventory.rows allWell, .files sampleStore, .delete fun _ => false]
    let target := (run (World.step oneObject sampleSha256) sampleWorld ops).targets "t"
    ∃ stats', (eval (serving target) 0 (Fetch sampleSha256 sampleInventory.rows sampleStore)).2.2.2 = .ok (stats', none) ∧
      ∀ b ∈ sampleInventory.rows,
        Good sampleSha256 b (eval (serving target) 0 (Fetch sampleSha256 sampleInventory.rows sampleStore)).2.2.1 := by
  have hnone : ∀ replicas ∈ sampleWorld.replicas :: sampleWorld.backups, ∀ d, replicas d = none := by
    intro replicas hr d
    rw [List.mem_singleton.mp hr]
    rfl
  have hsized : Along (World.step oneObject sampleSha256) (Sized fun _ => 2) sampleWorld
      ([] ++ Op.sync "t" sampleInventory.rows allWell :: [.files sampleStore, .delete fun _ => false]) :=
    ⟨List.forall_mem_singleton.mpr rfl, trivial, trivial, trivial⟩
  have hok : (sampleWorld.synced oneObject sampleSha256 "t" sampleInventory.rows allWell).2 = .ok ({ uploaded := 1 }, none) := by
    decide +kernel
  refine (synced_recovers oneObject oneObjects oneObject_writeOnce sampleSha256 (fun _ => 2) sampleWorld hnone []
    [.files sampleStore, .delete fun _ => false] "t" sampleInventory allWell hsized _ hok).2 (serving _) (fun _ => sampleName)
    sampleStore (serving_serves _) (List.forall_mem_singleton.mpr fun content hfile hsha => ?_)
  have hempty : sampleStore.files sampleDigest = some [] := by decide +kernel
  obtain rfl : [] = content := Option.some.inj (hempty.symm.trans hfile)
  exact absurd hsha (by decide +kernel)

end KyNotes.Mirror
