import KyNotes.Auth.Effects

/-!
# Confirmations are single use and bound

The results hold at every reading of the clock: each transaction of a run comes with its own (`stepAt`).

* `tx_challenges`: what one transaction can do to a challenge.
* `Granted`: every stored challenge has its creation, its start and its verification in the history, in that order, and a
  spent one is not stored.
* `started_kept`: a create replaces no challenge that is started and has not expired.
* `grants_single_use`: so every admitted request has its confirmation, and every confirmation admits one request.
-/

namespace KyNotes.Auth

open Relational Check Transition
open scoped List

variable {cfg : Config} {db db' : Db} {now : Time}

/-! ## Runs with any clock -/

/-- The world at another reading of the clock. -/
def World.setClock (w : World) (t : Time) : World := { w with clock := t }

section TimedRuns

variable (cfg : Config)

/-- A transaction at the clock that it reads. -/
def stepAt (w : World) (x : Time × Op) : World := step cfg (w.setClock x.1) x.2

/-- What it adds to the history. -/
def commitsAt (w : World) (x : Time × Op) : List Entry := commits cfg (w.setClock x.1) x.2

/-- The world and the history after the transactions, from a server that was just installed. -/
def recordedAt (xs : List (Time × Op)) : World × List Entry :=
  run (logged (stepAt cfg) (commitsAt cfg)) (.init, []) xs

end TimedRuns

/-! ## Entries about a challenge -/

/-- The refused request that created the challenge. -/
def Entry.creates (c : Challenge) (x : Entry) : Prop :=
  x.id = c.id ∧ (∃ s allow, x.op = .requireSSOStepUp s c.action c.scope allow ∧ s.id = c.sessionId) ∧
    c.createdAt = format x.clock ∧ c.expiresAt ≤ format (x.clock + ssoLoginLifetime)

/-- The browser opened it. -/
def Entry.begins (c : Challenge) (x : Entry) : Prop :=
  ∃ s seen, x.op = .beginSSOStepUp s c.id seen ∧ s.id = c.sessionId

/-- The callback verified it. -/
def Entry.completes (c : Challenge) (x : Entry) : Prop :=
  (∃ s i authTime, x.op = .completeSSOStepUp s c.id i authTime ∧ s.id = c.sessionId ∧ c.createdAt ≤ authTime) ∧
    c.expiresAt ≤ format (x.clock + 60 * second)

/-- A request spent the challenge with this identifier. -/
def Entry.consumes (id : ChallengeId) (x : Entry) : Bool :=
  match x.op with
  | .consumeSSOStepUp _ id' _ _ => id' = id
  | _ => false

theorem consumes_iff {id : ChallengeId} {x : Entry} :
    x.consumes id = true ↔ ∃ s action scope, x.op = .consumeSSOStepUp s id action scope := by
  unfold Entry.consumes
  constructor
  · intro h
    split at h
    · rename_i s id' action scope hop
      rw [← of_decide_eq_true h]
      exact ⟨s, action, scope, hop⟩
    · cases h
  · rintro ⟨s, action, scope, hop⟩
    rw [hop]
    exact decide_eq_true rfl

/-- The history of a stored challenge. -/
structure Traced (log : List Entry) (c : Challenge) : Prop where
  opened : ∃ x, x.creates c ∧ [x] <+ log
  started : c.started = true → ∃ x y, x.creates c ∧ y.begins c ∧ [x, y] <+ log
  verified : c.verified = true → ∃ x y z, x.creates c ∧ y.begins c ∧ z.completes c ∧ [x, y, z] <+ log

theorem Traced.append {log : List Entry} {c : Challenge} (h : Traced log c) (more : List Entry) :
    Traced (log ++ more) c where
  opened := by
    obtain ⟨x, hx, hl⟩ := h.opened
    exact ⟨x, hx, hl.trans (List.sublist_append_left log more)⟩
  started hs := by
    obtain ⟨x, y, hx, hy, hl⟩ := h.started hs
    exact ⟨x, y, hx, hy, hl.trans (List.sublist_append_left log more)⟩
  verified hv := by
    obtain ⟨x, y, z, hx, hy, hz, hl⟩ := h.verified hv
    exact ⟨x, y, z, hx, hy, hz, hl.trans (List.sublist_append_left log more)⟩

/-! ## One transaction -/

/-- A challenge that a callback has verified. -/
def Challenge.verifiedBy (c : Challenge) (i : SSOIdentity) (authTime : Stamp) (now : Time) : Challenge :=
  { c with
    verified := true, authTime := authTime, proofSid := i.sessionId, proofIat := i.issuedAt
    expiresAt := min c.expiresAt (format (now + 60 * second)) }

/-- How a challenge that is stored after a transaction came about. -/
inductive ChallengeStep (w : World) (op : Op) (c' : Challenge) : Prop
  | kept (h : c' ∈ w.db.challenges)
  | created (s : Session) (action : Digest) (scope : Scope) (allow : Bool)
      (hop : op = .requireSSOStepUp s action scope allow) (h : c' = newChallenge s action scope w.next w.clock)
  | begun (c : Challenge) (hc : c ∈ w.db.challenges) (s : Session) (seen : Time)
      (hop : op = .beginSSOStepUp s c.id seen) (hs : c.sessionId = s.id) (h : c' = { c with started := true })
  | completed (c : Challenge) (hc : c ∈ w.db.challenges) (s : Session) (i : SSOIdentity) (authTime : Stamp)
      (hop : op = .completeSSOStepUp s c.id i authTime) (hs : c.sessionId = s.id) (hstarted : c.started = true)
      (hauth : c.createdAt ≤ authTime) (h : c' = c.verifiedBy i authTime w.clock)

theorem tx_challenges {w : World} {op : Op} (h : tx cfg w op = .ok db') {c' : Challenge} (hc' : c' ∈ db'.challenges) :
    ChallengeStep w op c' := by
  by_cases hop : Tbl.challenges ∈ op.touches
  · cases op with
    | collectSessions =>
      cases h
      exact .kept (Table.mem_delete.mp hc').1
    | requireSSOStepUp s action scope allow =>
      obtain ⟨-, t, ht, rfl⟩ := requireSSOStepUp_ok h
      rcases (Table.mem_insert ht).mp hc' with hc' | hc'
      · exact .kept (Table.mem_delete.mp hc').1
      · exact .created s action scope allow rfl hc'
    | beginSSOStepUp s id seen =>
      obtain ⟨c, hc, ⟨hs, -, -⟩, rfl⟩ := beginSSOStepUp_ok h
      rcases Table.mem_update_cases hc' with ⟨hc', -⟩ | ⟨r, hr, hid, rfl⟩
      · exact .kept hc'
      · have hrc : r = c := Table.eq_of_key hr (Table.get_mem hc) (hid.trans (Table.get_key hc).symm)
        subst hrc
        exact .begun r hr s seen (by rw [hid]) hs rfl
    | cancelSSOStepUp s id =>
      cases h
      exact .kept (Table.mem_delete.mp hc').1
    | completeSSOStepUp s id i authTime =>
      obtain ⟨c, hc, hs, -, ⟨hst, -, -, hauth⟩, rfl⟩ := completeSSOStepUp_ok h
      rcases Table.mem_update_cases hc' with ⟨hc', -⟩ | ⟨r, hr, hid, rfl⟩
      · exact .kept hc'
      · have hrc : r = c := Table.eq_of_key hr (Table.get_mem hc) (hid.trans (Table.get_key hc).symm)
        subst hrc
        exact .completed r hr s i authTime (by rw [hid]) hs hst hauth rfl
    | consumeSSOStepUp s id action scope =>
      obtain ⟨-, -, -, -, rfl⟩ := consumeSSOStepUp_ok h
      exact .kept (Table.mem_delete.mp hc').1
    | _ => simp [Op.touches] at hop
  · rw [show db'.challenges = w.db.challenges from tx_frame h hop] at hc'
    exact .kept hc'

/-- No transaction stores a challenge under an identifier that is neither stored nor the next one. -/
theorem ChallengeStep.id_cases {w : World} {op : Op} {c' : Challenge} (h : ChallengeStep w op c') :
    c'.id = w.next ∨ ∃ c ∈ w.db.challenges, c.id = c'.id := by
  cases h with
  | kept h => exact Or.inr ⟨c', h, rfl⟩
  | created s action scope allow hop h => exact Or.inl (by rw [h]; rfl)
  | begun c hc s seen hop hs h => exact Or.inr ⟨c, hc, by rw [h]⟩
  | completed c hc s i authTime hop hs hst hauth h => exact Or.inr ⟨c, hc, by rw [h]; rfl⟩

/-- The history goes on with the challenge. -/
theorem ChallengeStep.traced {w : World} {op : Op} {c' : Challenge} {log : List Entry} (h : ChallengeStep w op c')
    (hl : ∀ c ∈ w.db.challenges, Traced log c) : Traced (log ++ [⟨w.clock, w.next, op⟩]) c' := by
  cases h with
  | kept h => exact (hl c' h).append _
  | created s action scope allow hop h =>
    subst hop h
    refine ⟨⟨_, ⟨rfl, ⟨s, allow, rfl, rfl⟩, rfl, Nat.le_refl _⟩, List.sublist_append_right _ _⟩, ?_, ?_⟩
    · exact fun hs => absurd hs Bool.false_ne_true
    · exact fun hv => absurd hv Bool.false_ne_true
  | begun c hc s seen hop hs h =>
    subst hop h
    obtain ⟨x, hx, hxl⟩ := (hl c hc).opened
    have hlog := (hl c hc).append [⟨w.clock, w.next, .beginSSOStepUp s c.id seen⟩]
    refine ⟨hlog.opened, fun _ => ⟨x, ⟨w.clock, w.next, .beginSSOStepUp s c.id seen⟩, hx, ?_, ?_⟩, hlog.verified⟩
    · exact ⟨s, seen, rfl, hs.symm⟩
    · exact hxl.append (List.Sublist.refl _)
  | completed c hc s i authTime hop hs hst hauth h =>
    subst hop h
    obtain ⟨x, y, hx, hy, hxy⟩ := (hl c hc).started hst
    have hx' : x.creates (c.verifiedBy i authTime w.clock) :=
      ⟨hx.1, hx.2.1, hx.2.2.1, Nat.le_trans (Nat.min_le_left _ _) hx.2.2.2⟩
    have hxy' : [x, y] <+ log ++ [⟨w.clock, w.next, .completeSSOStepUp s c.id i authTime⟩] :=
      hxy.trans (List.sublist_append_left _ _)
    refine ⟨⟨x, hx', ?_⟩, fun _ => ⟨x, y, hx', hy, hxy'⟩, fun _ => ?_⟩
    · exact (List.sublist_append_left [x] [y]).trans hxy'
    · refine ⟨x, y, ⟨w.clock, w.next, .completeSSOStepUp s c.id i authTime⟩, hx', hy, ?_, ?_⟩
      · exact ⟨⟨s, i, authTime, rfl, hs.symm, hauth⟩, Nat.min_le_right _ _⟩
      · exact hxy.append (List.Sublist.refl _)

/-! ## Every run -/

/-- The invariant of the world and its history. -/
structure Granted (x : World × List Entry) : Prop where
  bound : ∀ c ∈ x.1.db.challenges, c.id < x.1.next
  past : ∀ e ∈ x.2, e.id < x.1.next
  minted : x.2.Pairwise fun e e' => e.id < e'.id
  traced : ∀ c ∈ x.1.db.challenges, Traced x.2 c
  /-- A spent challenge is gone, and its identifier with it. -/
  spent : ∀ id, ∀ e ∈ x.2, e.consumes id = true → id < x.1.next ∧ ∀ c ∈ x.1.db.challenges, c.id ≠ id
  once : ∀ id, (x.2.filter (Entry.consumes id)).length ≤ 1

theorem consume_ok {w : World} {s : Session} {id : ChallengeId} {action : Digest} {scope : Scope}
    (h : tx cfg w (.consumeSSOStepUp s id action scope) = .ok db') :
    (∃ c ∈ w.db.challenges, c.id = id) ∧ ∀ c ∈ db'.challenges, c.id ≠ id := by
  obtain ⟨c, hc, -, -, rfl⟩ := consumeSSOStepUp_ok h
  exact ⟨⟨c, Table.get_mem hc, Table.get_key hc⟩, fun d hd => (Table.mem_delete.mp hd).2⟩

theorem commit_granted {w : World} {log : List Entry} {op : Op} {v : World} (hx : Granted (w, log))
    (h : tx cfg w op = .ok v.db) (hv : v.next = w.next + 1) : Granted (v, log ++ [⟨w.clock, w.next, op⟩]) where
  bound c' hc' := by
    rw [hv]
    rcases (tx_challenges h hc').id_cases with hid | ⟨c, hc, hid⟩
    · exact hid ▸ Nat.lt_succ_self _
    · exact hid ▸ Nat.lt_succ_of_lt (hx.bound c hc)
  past e he := by
    rw [hv]
    rcases List.mem_append.mp he with he | he
    · exact Nat.lt_succ_of_lt (hx.past e he)
    · rw [List.mem_singleton.mp he]
      exact Nat.lt_succ_self _
  minted := by
    refine List.pairwise_append.mpr ⟨hx.minted, List.pairwise_singleton _ _, ?_⟩
    intro e he e' he'
    rw [List.mem_singleton.mp he']
    exact hx.past e he
  traced c' hc' := (tx_challenges h hc').traced hx.traced
  spent id e he hid := by
    rw [hv]
    rcases List.mem_append.mp he with he | he
    · -- spent before: the identifier is taken and no challenge has it
      obtain ⟨hlt, hnone⟩ := hx.spent id e he hid
      refine ⟨Nat.lt_succ_of_lt hlt, fun c' hc' heq => ?_⟩
      rcases (tx_challenges h hc').id_cases with hnext | ⟨c, hc, hcid⟩
      · exact absurd (heq ▸ hnext) (Nat.ne_of_lt hlt)
      · exact hnone c hc (hcid.trans heq)
    · rw [List.mem_singleton.mp he] at hid
      obtain ⟨s, action, scope, hop⟩ := consumes_iff.mp hid
      simp only at hop
      subst hop
      obtain ⟨⟨c, hc, hcid⟩, hgone⟩ := consume_ok h
      exact ⟨hcid ▸ Nat.lt_succ_of_lt (hx.bound c hc), hgone⟩
  once id := by
    rw [List.filter_append, List.length_append]
    by_cases hid : Entry.consumes id ⟨w.clock, w.next, op⟩ = true
    · -- it spends a stored challenge, so there was no entry before
      obtain ⟨s, action, scope, hop⟩ := consumes_iff.mp hid
      simp only at hop
      subst hop
      obtain ⟨⟨c, hc, hcid⟩, -⟩ := consume_ok h
      have hnone : log.filter (Entry.consumes id) = [] := by
        rw [List.filter_eq_nil_iff]
        intro e he heid
        exact (hx.spent id e he heid).2 c hc hcid
      rw [hnone, List.length_nil, Nat.zero_add]
      exact List.length_filter_le _ _
    · rw [List.filter_cons_of_neg hid]
      exact hx.once id

theorem stepAt_granted {x : World × List Entry} (a : Time × Op) (hx : Granted x) :
    Granted (logged (stepAt cfg) (commitsAt cfg) x a) := by
  obtain ⟨w, log⟩ := x
  obtain ⟨t, op⟩ := a
  have hw : Granted (w.setClock t, log) := ⟨hx.bound, hx.past, hx.minted, hx.traced, hx.spent, hx.once⟩
  simp only [logged, stepAt, commitsAt]
  cases htx : tx cfg (w.setClock t) op with
  | ok db' =>
    rw [commits_ok htx]
    exact commit_granted hw (htx.trans (congrArg Except.ok (step_ok htx).symm)) rfl
  | error e =>
    rw [commits_error htx, List.append_nil]
    have hdb : (step cfg (w.setClock t) op).db = w.db := step_error htx
    refine ⟨?_, fun e he => Nat.lt_succ_of_lt (hx.past e he), hx.minted, ?_, ?_, hx.once⟩
    · intro c hc
      rw [hdb] at hc
      exact Nat.lt_succ_of_lt (hx.bound c hc)
    · intro c hc
      rw [hdb] at hc
      exact hx.traced c hc
    · intro id e he hid
      obtain ⟨hlt, hnone⟩ := hx.spent id e he hid
      refine ⟨Nat.lt_succ_of_lt hlt, fun c hc => ?_⟩
      rw [hdb] at hc
      exact hnone c hc

theorem recordedAt_granted (cfg : Config) (xs : List (Time × Op)) : Granted (recordedAt cfg xs) := by
  refine run_inv (fun _ a => stepAt_granted a) xs ⟨?_, ?_, List.Pairwise.nil, ?_, ?_, fun _ => Nat.zero_le _⟩
  · exact fun c hc => absurd hc List.not_mem_nil
  · exact fun e he => absurd he List.not_mem_nil
  · exact fun c hc => absurd hc List.not_mem_nil
  · exact fun _ e he => absurd he List.not_mem_nil

/-! ## Admission -/

/-- The history shows, in this order, the refused request of the session for which the challenge was created, its start
and its verification, with an authentication no earlier than the creation; neither the challenge nor the verification
has expired. -/
def Confirmed (log : List Entry) (s : Session) (id : ChallengeId) (action : Digest) (scope : Scope) (now : Time) : Prop :=
  ∃ x y z, [x, y, z] <+ log ∧
    (x.id = id ∧ ∃ s₀ allow, x.op = .requireSSOStepUp s₀ action scope allow ∧ s₀.id = s.id) ∧
    (∃ s₁ seen, y.op = .beginSSOStepUp s₁ id seen ∧ s₁.id = s.id) ∧
    (∃ s₂ i authTime, z.op = .completeSSOStepUp s₂ id i authTime ∧ s₂.id = s.id ∧ format x.clock ≤ authTime) ∧
    format now < format (x.clock + ssoLoginLifetime) ∧ format now < format (z.clock + 60 * second)

theorem consume_confirmed {w : World} {log : List Entry} (hx : Granted (w, log)) {s : Session} {id : ChallengeId}
    {action : Digest} {scope : Scope} (h : consumeSSOStepUp w.db s id action scope now = .ok db') :
    Confirmed log s id action scope now ∧ liveStepUp w.db s now scope := by
  obtain ⟨c, hc, ⟨hs, ha, hsc, hver, hexp⟩, hlive, -⟩ := consumeSSOStepUp_ok h
  obtain ⟨x, y, z, hcr, hbe, hco, hl⟩ := (hx.traced c (Table.get_mem hc)).verified hver
  have hid : c.id = id := Table.get_key hc
  subst ha hsc hid
  obtain ⟨hxid, ⟨s₀, allow, hxop, hs₀⟩, hcre, hxexp⟩ := hcr
  obtain ⟨s₁, seen, hyop, hs₁⟩ := hbe
  obtain ⟨⟨s₂, i, authTime, hzop, hs₂, hauth⟩, hzexp⟩ := hco
  refine ⟨⟨x, y, z, hl, ⟨hxid, s₀, allow, hxop, hs₀.trans hs⟩, ⟨s₁, seen, hyop, hs₁.trans hs⟩, ?_, ?_, ?_⟩, hlive⟩
  · exact ⟨s₂, i, authTime, hzop, hs₂.trans hs, hcre ▸ hauth⟩
  · exact Nat.lt_of_lt_of_le hexp hxexp
  · exact Nat.lt_of_lt_of_le hexp hzexp

/-- A create is refused while the session has a challenge that is started and has not expired, and it replaces none of
another session. -/
theorem started_kept {s : Session} {action : Digest} {scope : Scope} {allow : Bool} {id : ChallengeId}
    (h : requireSSOStepUp db s action scope allow id now = .ok db') {c : Challenge} (hc : c ∈ db.challenges)
    (hst : c.started = true) (hexp : format now < c.expiresAt) : c.sessionId ≠ s.id ∧ c ∈ db'.challenges := by
  obtain ⟨hp, t, ht, rfl⟩ := requireSSOStepUp_ok h
  have hne : c.sessionId ≠ s.id := fun hs => absurd (pendingChallenge_eq_none.mp hp c hc hs hst) (Nat.not_le.mpr hexp)
  refine ⟨hne, (Table.mem_insert ht).mpr (Or.inl (Table.mem_delete.mpr ⟨hc, ?_⟩))⟩
  rintro (hs | hs)
  · exact hne hs
  · exact absurd hs (Nat.not_le.mpr hexp)

/-- Over every interleaving, whatever clock each transaction reads: a challenge admits at most one request; an admitted
request comes from the session of the challenge, which is live, with its action and scope, after its start and its
verification and before it expires; and no create replaces a challenge that is started and has not expired. -/
theorem grants_single_use (cfg : Config) (xs : List (Time × Op)) :
    (recordedAt cfg xs).2.Pairwise (fun e e' => e.id < e'.id) ∧
    (∀ id, ((recordedAt cfg xs).2.filter (Entry.consumes id)).length ≤ 1) ∧
    (∀ t s id action scope db',
      tx cfg ((recordedAt cfg xs).1.setClock t) (.consumeSSOStepUp s id action scope) = .ok db' →
        Confirmed (recordedAt cfg xs).2 s id action scope t ∧ liveStepUp (recordedAt cfg xs).1.db s t scope) ∧
    (∀ t s action scope allow db',
      tx cfg ((recordedAt cfg xs).1.setClock t) (.requireSSOStepUp s action scope allow) = .ok db' →
        ∀ c ∈ (recordedAt cfg xs).1.db.challenges, c.started = true → format t < c.expiresAt →
          c.sessionId ≠ s.id ∧ c ∈ db'.challenges) := by
  have hg : Granted (recordedAt cfg xs) := recordedAt_granted cfg xs
  refine ⟨hg.minted, hg.once, ?_, ?_⟩
  · intro t s id action scope db' h
    exact consume_confirmed hg h
  · intro t s action scope allow db' h c hc hst hexp
    exact started_kept h hc hst hexp

/-- What the middleware reads of Eve's first session. -/
def eveSession : Session :=
  { id := 2, userId := 1, ssoIssuer := "https://idp", ssoClientId := "kynotes", ssoSubject := "s", createdAt := 0,
    stepUpRaw := none, passwordHash := "", accountKind := .user, passwordChangeRequired := false }

/-- Eve signs in, a request of hers is refused, and she opens its confirmation. -/
def openedOps : List (Time × Op) :=
  ssoOps.map (Prod.mk 0) ++ [(0, .ssoLogin 1 (eveIdentity 0) 0), (0, .requireSSOStepUp eveSession [1] .user true),
    (0, .beginSSOStepUp eveSession 3 0)]

/-- Eve comes back from the provider. -/
def verifiedOps : List (Time × Op) := openedOps ++ [(0, .completeSSOStepUp eveSession 3 (eveIdentity 0) 0)]

/-- Eve repeats the request. -/
theorem grants_single_use_eve : Confirmed (recordedAt plainConfig verifiedOps).2 eveSession 3 [1] .user 0 :=
  ((grants_single_use plainConfig verifiedOps).2.2.1 0 eveSession 3 [1] .user _ (tx_of_commits (by decide +kernel))).1

/-- A challenge that is started but has expired is replaced. -/
theorem expired_replaced :
    ∃ c ∈ (recordedAt plainConfig openedOps).1.db.challenges, c.started = true ∧
      (commitsAt plainConfig (recordedAt plainConfig openedOps).1
        (300 * second, .requireSSOStepUp eveSession [2] .user true)).length = 1 ∧
      c ∉ (stepAt plainConfig (recordedAt plainConfig openedOps).1
        (300 * second, .requireSSOStepUp eveSession [2] .user true)).db.challenges := by
  decide +kernel

end KyNotes.Auth
