import KyNotes.Auth.Effects

/-!
# A pairing token registers one device

* `tx_nonces`: a spent nonce stays spent, and a registration spends a nonce that was not.
* `registered_once`: so the history holds at most one registration of a token.
* `issued_bound`: every token that the server signs is bound to a session, and `register_authorised`: it registers only
  while that session is live.
-/

namespace KyNotes.Auth

open Relational Check Transition

variable {cfg : Config} {db' : Db}

/-- The nonce of the token has been used. -/
def Spent (cfg : Config) (db : Db) (c : PairingClaims) : Prop := (db.nonces.get (cfg.sha256 c.nonce)).isSome

/-- The entry is a registration with the token. -/
def Entry.registers (c : PairingClaims) (x : Entry) : Bool :=
  match x.op with
  | .register c' _ _ => c' = c
  | _ => false

/-! ## Single use -/

/-- A spent nonce stays spent. -/
theorem tx_nonces {w : World} {op : Op} (h : tx cfg w op = .ok db') {c : PairingClaims} (hs : Spent cfg w.db c) :
    Spent cfg db' c := by
  by_cases hop : Tbl.nonces ∈ op.touches
  · cases op with
    | register c' g seen =>
      simp only [tx, bind_ok, require_ok] at h
      obtain ⟨-, -, h⟩ := h
      obtain ⟨-, -, -, _, _, -, nonces, _, hn, -, rfl⟩ := registerDevice_ok h
      unfold Spent at hs ⊢
      rw [Table.get_insert hn]
      split
      · rfl
      · exact hs
    | _ => simp [Op.touches] at hop
  · unfold Spent
    rw [show db'.nonces = w.db.nonces from tx_frame h hop]
    exact hs

/-- A registration finds the nonce unspent and spends it. -/
theorem register_spends {w : World} {c : PairingClaims} {g : Registration} {seen : Time}
    (h : tx cfg w (.register c g seen) = .ok db') : ¬Spent cfg w.db c ∧ Spent cfg db' c := by
  simp only [tx, bind_ok, require_ok] at h
  obtain ⟨-, -, h⟩ := h
  obtain ⟨-, -, -, _, _, -, nonces, _, hn, -, rfl⟩ := registerDevice_ok h
  unfold Spent
  constructor
  · rw [Table.insert_fresh hn]
    simp
  · rw [Table.get_insert hn, if_pos rfl]
    rfl

/-- The history holds at most one registration of the token, and with one the nonce is spent. -/
structure UsedOnce (cfg : Config) (c : PairingClaims) (x : World × List Entry) : Prop where
  once : (x.2.filter (Entry.registers c)).length ≤ 1
  spent : ∀ y ∈ x.2, y.registers c = true → Spent cfg x.1.db c

theorem step_usedOnce {c : PairingClaims} {x : World × List Entry} {op : Op} (hx : UsedOnce cfg c x) :
    UsedOnce cfg c (logged (step cfg) (commits cfg) x op) := by
  obtain ⟨w, log⟩ := x
  simp only [logged]
  cases htx : tx cfg w op with
  | error e =>
    rw [commits_error htx, List.append_nil]
    exact ⟨hx.once, by simp only [step_error htx]; exact hx.spent⟩
  | ok db' =>
    rw [commits_ok htx]
    by_cases hr : Entry.registers c ⟨w.clock, w.next, op⟩ = true
    · -- a registration of the token: there was none before
      have hop : ∃ g seen, op = .register c g seen := by
        cases op with
        | register c' g seen =>
          simp only [Entry.registers, decide_eq_true_eq] at hr
          exact ⟨g, seen, by rw [hr]⟩
        | _ => simp [Entry.registers] at hr
      obtain ⟨g, seen, rfl⟩ := hop
      obtain ⟨hun, hsp⟩ := register_spends htx
      have hnone : log.filter (Entry.registers c) = [] := by
        rw [List.filter_eq_nil_iff]
        intro y hy hyr
        exact hun (hx.spent y hy hyr)
      refine ⟨?_, fun y _ _ => by simp only [step_ok htx]; exact hsp⟩
      simp only [List.filter_append, hnone, List.nil_append]
      exact List.length_filter_le _ _
    · refine ⟨?_, fun y hy hyr => ?_⟩
      · have hf : [(⟨w.clock, w.next, op⟩ : Entry)].filter (Entry.registers c) = [] := by simp [hr]
        simp only [List.filter_append, hf, List.append_nil]
        exact hx.once
      · simp only [step_ok htx]
        rcases List.mem_append.mp hy with hy | hy
        · exact tx_nonces htx (hx.spent y hy hyr)
        · rw [List.mem_singleton.mp hy] at hyr
          exact absurd hyr hr

/-- At most one registration of the token has committed. -/
theorem registered_once (cfg : Config) (c : PairingClaims) (ops : List Op) :
    ((history cfg .init ops).filter (Entry.registers c)).length ≤ 1 :=
  (run_inv (P := UsedOnce cfg c) (fun _ _ => step_usedOnce) ops
    ⟨by simp, fun y hy => absurd hy List.not_mem_nil⟩).once

/-! ## The authorising session -/

/-- Every signed token is bound to a session. -/
def Bound (w : World) : Prop := ∀ c ∈ w.issued, c.sessionId ≠ none

theorem mintSessionPairingToken_ok {s : Session} {nonce : Bytes} {now : Time} {c : PairingClaims}
    (h : mintSessionPairingToken s nonce now = .ok c) : c.sessionId = some s.id := by
  unfold mintSessionPairingToken at h
  obtain ⟨_, -, hc⟩ := bind_ok.mp h
  rw [← pure_ok.mp hc]

theorem mem_toOption {α ε : Type} {x : Except ε α} {a : α} : a ∈ x.toOption.toList ↔ x = .ok a := by
  cases x <;> simp [Except.toOption, eq_comm]

theorem signs_bound {op : Op} {c : PairingClaims} (h : c ∈ op.signs) : c.sessionId ≠ none := by
  cases op with
  | mintPairing s nonce seen =>
    rw [mintSessionPairingToken_ok (mem_toOption.mp h)]
    simp
  | _ => exact absurd h List.not_mem_nil

theorem issued_bound (cfg : Config) (ops : List Op) : Bound (reach cfg .init ops) := by
  refine run_inv (P := Bound) (fun w op hw c hc => ?_) ops nofun
  rcases List.mem_append.mp hc with hc | hc
  · exact hw c hc
  · exact signs_bound hc

/-- A registration rewrites or adds one device. -/
theorem storeDevice_one {db : Db} {c : PairingClaims} {g : Registration} {origin : Option SessionId} {id : DeviceId}
    {t : Table Device.id} (h : storeDevice cfg db c g origin id = .ok t) :
    ∃ i, ∀ d' ∈ t, d'.id = i ∨ d' ∈ db.devices := by
  simp only [storeDevice] at h
  split at h
  · rename_i old _
    cases h
    refine ⟨old.id, fun d' hd' => ?_⟩
    rcases Table.mem_update_cases hd' with ⟨hm, -⟩ | ⟨d, -, hid, rfl⟩
    · exact Or.inr hm
    · exact Or.inl hid
  · simp only [bind_ok, require_ok, fetch_ok] at h
    obtain ⟨-, -, h⟩ := h
    refine ⟨id, fun d' hd' => ?_⟩
    rcases (Table.mem_insert h).mp hd' with hm | rfl
    · exact Or.inr hm
    · exact Or.inl rfl

/-- A registration commits before the expiry of its token, in a state where the session that authorised it is live and
its account active, and it writes one device. -/
theorem register_authorised {w : World} (hw : Bound w) {c : PairingClaims} {g : Registration} {seen : Time}
    (h : tx cfg w (.register c g seen) = .ok db') :
    w.clock < parseTime c.exp ∧ (∃ r, authorised w.db c w.clock r) ∧
      (∃ u ∈ w.db.users, u.id = c.sub ∧ u.status = .active) ∧ ∃ i, ∀ d' ∈ db'.devices, d'.id = i ∨ d' ∈ w.db.devices := by
  simp only [tx, bind_ok, require_ok] at h
  obtain ⟨-, hc, h⟩ := h
  obtain ⟨-, hexp, ⟨u, hu, -, hact⟩, subject, origin, ho, _, devices, -, hd, rfl⟩ := registerDevice_ok h
  obtain ⟨hum, hid⟩ := Table.get_eq_some.mp hu
  refine ⟨hexp, ?_, ⟨u, hum, hid, hact⟩, storeDevice_one hd⟩
  rcases originSession_ok ho with ⟨hnone, -⟩ | ⟨r, hr, -⟩
  · exact absurd hnone (hw c hc)
  · exact ⟨r, hr⟩

/-- Whatever registrations, revocations and ticks interleave, a token registers at most one device, before its expiry and
while the session that authorised it is live and its account active. -/
theorem pairing_once (cfg : Config) (ops : List Op) (c : PairingClaims) :
    ((history cfg .init ops).filter (Entry.registers c)).length ≤ 1 ∧
    ∀ before g seen after db', ops = before ++ .register c g seen :: after →
      tx cfg (reach cfg .init before) (.register c g seen) = .ok db' →
      let w := reach cfg .init before
      w.clock < parseTime c.exp ∧ (∃ r, authorised w.db c w.clock r) ∧
        (∃ u ∈ w.db.users, u.id = c.sub ∧ u.status = .active) ∧
        ∃ i, ∀ d' ∈ db'.devices, d'.id = i ∨ d' ∈ w.db.devices :=
  ⟨registered_once cfg c ops, fun before _ _ _ _ _ h => register_authorised (issued_bound cfg before) h⟩

/-- The token of the first session of an account. -/
def pairingToken : PairingClaims :=
  { sub := 0, exp := 120, nonce := [1], purpose := "device-pair", sessionId := some 1 }

/-- Ada signs in and draws a token; two devices present it. -/
def pairingOps : List Op :=
  [.createAccount (localAccount 0 "ada" "a" .user .user), .login 0 "a" "a" 0,
    .mintPairing (sessionOf 1 (localAccount 0 "ada" "a" .user .user)) [1] 0]

/-- The first device is registered while Ada's session is live. -/
theorem pairing_once_first :
    ∃ r, authorised (reach plainConfig .init pairingOps).db pairingToken (reach plainConfig .init pairingOps).clock r :=
  ((pairing_once plainConfig
    (pairingOps ++ .register pairingToken ⟨List.replicate 32 0, "phone", [], "h"⟩ 0 ::
      [.register pairingToken ⟨List.replicate 32 1, "tablet", [], "h"⟩ 0]) pairingToken).2
    pairingOps ⟨List.replicate 32 0, "phone", [], "h"⟩ 0 [.register pairingToken ⟨List.replicate 32 1, "tablet", [], "h"⟩ 0]
    _ rfl (tx_of_commits (by decide +kernel))).2.1

end KyNotes.Auth
