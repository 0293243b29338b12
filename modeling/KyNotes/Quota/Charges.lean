import KyNotes.Server.Specs

/-!
# Whom a byte is charged to

A container is charged to its owner and, when it is a team or a team's notebook, to the team (`Container.payers`).
`Room`: what is stored leaves each of them the bytes of a write, which a quota check that passes has seen
(`checkQuota_ok`).
-/

namespace KyNotes

open Relational Check

variable {cfg : Config} {db : DB} {now : Stamp} {cid : ContainerId}

/-- Who is charged for stored bytes. -/
inductive Payer
  | user (id : UserId)
  | team (id : ContainerId)
deriving DecidableEq

/-- The containers whose bytes a payer's sums count. -/
def Payer.scope (k : KeyTables) : Payer → ContainerId → Prop
  | .user u => OwnedBy k u
  | .team t => InScope k t

instance (k : KeyTables) : (p : Payer) → DecidablePred (p.scope k)
  | .user u => inferInstanceAs (DecidablePred (OwnedBy k u))
  | .team t => inferInstanceAs (DecidablePred (InScope k t))

/-- Whom a container is charged to. -/
def Container.payers (c : Container) : List Payer := .user c.ownerUserId :: (teamOf c).toList.map .team

/-- The quota of a payer; `0` is none. -/
def Payer.limit (cfg : Config) (k : KeyTables) : Payer → Nat
  | .user u => (k.users.get u).elim 0 (quotaOf cfg)
  | .team _ => cfg.teamQuotaBytes

/-- The bytes charged besides those in containers. -/
def Payer.links (db : DB) (now : Stamp) : Payer → Nat
  | .user u => linkBytes db u now
  | .team _ => 0

/-- The stored bytes of a payer. -/
def Payer.stored (db : DB) (now : Stamp) (p : Payer) : Nat := storedBytes db (p.scope db.keys) + p.links db now

theorem user_mem_payers {c : Container} {u : UserId} : .user u ∈ c.payers ↔ u = c.ownerUserId := by
  simp [Container.payers]

theorem team_mem_payers {c : Container} {t : ContainerId} : .team t ∈ c.payers ↔ teamOf c = some t := by
  simp [Container.payers]

/-- What is used is what is stored and what is reserved. -/
theorem stored_le_used (p : Payer) (skip : Option UploadId) :
    p.stored db now ≤ usedBytes db (p.scope db.keys) now skip + p.links db now := by
  unfold Payer.stored usedBytes
  omega

/-- Whoever is charged for a container has room for more bytes in it: `0` is no quota. -/
def Room (cfg : Config) (db : DB) (now : Stamp) (cid : ContainerId) (n : Nat) : Prop :=
  ∀ c ∈ db.keys.containers, c.id = cid → ∀ p ∈ c.payers, p.limit cfg db.keys ≠ 0 →
    p.stored db now + n ≤ p.limit cfg db.keys

instance (cfg : Config) (db : DB) (now : Stamp) (cid : ContainerId) (n : Nat) : Decidable (Room cfg db now cid n) :=
  inferInstanceAs (Decidable (∀ c ∈ db.keys.containers, c.id = cid → ∀ p ∈ c.payers, p.limit cfg db.keys ≠ 0 →
    p.stored db now + n ≤ p.limit cfg db.keys))

/-- A quota check that passed has seen room. -/
theorem checkQuota_ok {skip : Option UploadId} {n : Nat} {x : Unit} (h : checkQuota cfg db now cid skip n = .ok x) :
    Room cfg db now cid n := by
  simp only [checkQuota, quotaExceeded, bind_ok, fetch_ok, require_ok] at h
  obtain ⟨b, ⟨c, hc, owner, ho, hx⟩, rfl⟩ := h
  have hid : owner.id = c.ownerUserId := Table.get_key ho
  intro c' hc' hcid p hp hl
  obtain rfl : c' = c := Table.eq_of_key hc' (Table.get_mem hc) (hcid.trans (Table.get_key hc).symm)
  split at hx
  · simp at hx
  · rename_i hu
    refine Nat.le_trans (Nat.add_le_add_right (stored_le_used p skip) n) ?_
    cases p with
    | user u =>
      rw [user_mem_payers] at hp
      subst hp
      simp only [Payer.limit, ho, Option.elim_some] at hl ⊢
      simp only [userQuotaExceeded, decide_eq_true_eq, not_and, Nat.not_lt] at hu
      have hroom := hu hl
      rw [hid] at hroom
      exact hroom
    | team t =>
      rw [team_mem_payers] at hp
      rw [hp] at hx
      simp only [pure_ok, decide_eq_false_iff_not, not_and, Nat.not_lt] at hx
      exact hx hl

end KyNotes
