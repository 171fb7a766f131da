import Classfile.Image.Member
import Classfile.Proofs.Pool.Growth

/-!
Going through the members of a class and replacing, for each of them, the first one with the same
name and descriptor. When replacing does not change these and gives a member that it would replace
by itself, then going through the members once more replaces nothing.
-/
namespace Classfile

variable {owner : FlagOwner} {pool : ConstantPool} {members members' : List (Member owner)}
  {m r r' : Member owner} {n p : Nat} {positions : List Nat}

namespace Member

/-- Both have the same name and the same descriptor. -/
def Like (pool : ConstantPool) (m r : Member owner) : Prop :=
  pool.text m.name = pool.text r.name ∧ pool.text m.descriptor = pool.text r.descriptor

theorem Like.refl (m : Member owner) : Like pool m m := ⟨rfl, rfl⟩

theorem Like.symm (h : Like pool m r) : Like pool r m := ⟨h.1.symm, h.2.symm⟩

theorem Like.trans (h : Like pool m r) (h' : Like pool r r') : Like pool m r' :=
  ⟨h.1.trans h'.1, h.2.trans h'.2⟩

/-- The first member that is like `m` is `r`, at position `p`. -/
structure First (pool : ConstantPool) (members : List (Member owner)) (m : Member owner) (p : Nat)
    (r : Member owner) : Prop where
  found : members[p]? = some r
  like : Like pool r m
  before : ∀ k < p, ∀ x, members[k]? = some x → ¬ Like pool x m

theorem First.unique {k : Nat} {x : Member owner} (h : First pool members m p r)
    (h' : First pool members m k x) : p = k := by
  rcases Nat.lt_trichotomy p k with hlt | rfl | hlt
  · exact absurd h.like (h'.before p hlt r h.found)
  · rfl
  · exact absurd h'.like (h.before k hlt x h'.found)

theorem exists_first (hm : members[n]? = some m) : ∃ p r, First pool members m p r := by
  induction n using Nat.strongRecOn generalizing m with
  | ind n ih =>
    by_cases hb : ∃ k < n, ∃ x, members[k]? = some x ∧ Like pool x m
    · obtain ⟨k, hk, x, hx, hlike⟩ := hb
      obtain ⟨p, r, hf⟩ := ih k hk hx
      exact ⟨p, r, hf.found, hf.like.trans hlike, fun j hj y hy hym =>
        hf.before j hj y hy (hym.trans hlike.symm)⟩
    · exact ⟨n, m, hm, .refl m, fun k hk x hx hlike => hb ⟨k, hk, x, hx, hlike⟩⟩

/-- The members at the positions of the first list are like those at the same positions of the
second one. -/
def Alike (pool : ConstantPool) (members members' : List (Member owner)) : Prop :=
  ∀ (k : Nat) (x : Member owner), members[k]? = some x →
    ∃ x', members'[k]? = some x' ∧ Like pool x x'

theorem alike_set (hp : members[p]? = some r) (hl : Like pool r' r) :
    Alike pool members (members.set p r') ∧ Alike pool (members.set p r') members := by
  have hlt : p < members.length := (List.getElem?_eq_some_iff.mp hp).1
  constructor
  · intro k x hx
    rw [List.getElem?_set]
    by_cases hk : p = k
    · subst hk
      rw [hp] at hx
      cases hx
      exact ⟨r', by simp [hlt], hl.symm⟩
    · exact ⟨x, by rw [if_neg hk, hx], .refl x⟩
  · intro k x hx
    rw [List.getElem?_set] at hx
    by_cases hk : p = k
    · subst hk
      simp only [hlt, if_true, Option.some.injEq] at hx
      subst hx
      exact ⟨r, hp, hl⟩
    · rw [if_neg hk] at hx
      exact ⟨x, hx, .refl x⟩

theorem First.transfer {m' : Member owner} (h : First pool members m p r)
    (ha : Alike pool members members') (ha' : Alike pool members' members) (hm : Like pool m m') :
    ∃ r', First pool members' m' p r' := by
  obtain ⟨r', hr', hl⟩ := ha p r h.found
  refine ⟨r', hr', (hl.symm.trans h.like).trans hm, fun k hk x hx hxm => ?_⟩
  obtain ⟨y, hy, hxy⟩ := ha' k x hx
  exact h.before k hk y hy ((hxy.symm.trans hxm).trans hm.symm)

end Member

open Member

/-- For members one after another, the first one that is like the member is replaced. Positions
without a member are skipped. -/
inductive Pass (pool : ConstantPool) (renew : Member owner → Member owner → Prop) :
    List Nat → List (Member owner) → List (Member owner) → Prop
  | done {members : List (Member owner)} : Pass pool renew [] members members
  | skip {n : Nat} {positions : List Nat} {members members' : List (Member owner)}
      (hn : members[n]? = none) (h : Pass pool renew positions members members') :
      Pass pool renew (n :: positions) members members'
  | replace {n p : Nat} {positions : List Nat} {members members' : List (Member owner)}
      {m r r' : Member owner} (hm : members[n]? = some m) (hf : First pool members m p r)
      (hr : renew r r') (h : Pass pool renew positions (members.set p r') members') :
      Pass pool renew (n :: positions) members members'

namespace Pass

variable {renew : Member owner → Member owner → Prop}

theorem length (h : Pass pool renew positions members members') :
    members'.length = members.length := by
  induction h with
  | done => rfl
  | skip _ _ ih => exact ih
  | replace _ _ _ _ ih => rw [ih, List.length_set]

theorem forall_mem {P : Member owner → Prop} (h : Pass pool renew positions members members')
    (hP : ∀ r r', renew r r' → P r') (hm : ∀ m ∈ members, P m) : ∀ m ∈ members', P m := by
  induction h with
  | done => exact hm
  | skip _ _ ih => exact ih hm
  | replace _ _ hr _ ih =>
    refine ih fun x hx => ?_
    rcases List.mem_or_eq_of_mem_set hx with hx | rfl
    · exact hm x hx
    · exact hP _ _ hr

/-- Up to a position, the first member that is like the one there would be replaced by itself. -/
def Settled (pool : ConstantPool) (renew : Member owner → Member owner → Prop)
    (members : List (Member owner)) (n : Nat) : Prop :=
  ∀ k < n, ∀ m, members[k]? = some m → ∀ p r, First pool members m p r → renew r r

/-- Replacing keeps what was settled, and settles one position more. -/
theorem settled_set (hl : ∀ r r', renew r r' → Like pool r' r)
    (hn : ∀ r r', renew r r' → renew r' r') (hs : Settled pool renew members n)
    (hm : members[n]? = some m) (h : First pool members m p r) (hr : renew r r') :
    Settled pool renew (members.set p r') (n + 1) := by
  intro k hk m' hm' q x' hq
  obtain ⟨ha, ha'⟩ := alike_set h.found (hl r r' hr)
  obtain ⟨x, hx, hlike⟩ := ha' k m' hm'
  obtain ⟨y, hy⟩ := hq.transfer ha' ha hlike
  have hfound := hq.found
  rw [List.getElem?_set] at hfound
  by_cases hpq : p = q
  · -- the member that was just put there
    subst hpq
    split at hfound
    · split at hfound
      · cases hfound
        exact hn r r' hr
      · cases hfound
    · contradiction
  · rw [if_neg hpq] at hfound
    rw [hy.found] at hfound
    cases hfound
    rcases Nat.lt_succ_iff_lt_or_eq.mp hk with hlt | rfl
    · exact hs k hlt x hx q _ hy
    · rw [hm] at hx
      cases hx
      exact absurd (h.unique hy) hpq

theorem settled_succ (hs : Settled pool renew members n) (hn : members[n]? = none) :
    Settled pool renew members (n + 1) := by
  intro k hk m hm
  rcases Nat.lt_succ_iff_lt_or_eq.mp hk with hlt | rfl
  · exact hs k hlt m hm
  · rw [hn] at hm
    cases hm

theorem settled_range {count : Nat} (hl : ∀ r r', renew r r' → Like pool r' r)
    (hn : ∀ r r', renew r r' → renew r' r') (hs : Settled pool renew members n)
    (h : Pass pool renew (List.range' n count) members members') :
    Settled pool renew members' (n + count) := by
  induction count generalizing n members with
  | zero =>
    cases h
    exact hs
  | succ count ih =>
    rw [Nat.add_succ, ← Nat.succ_add]
    cases h with
    | skip hnone h => exact ih (settled_succ hs hnone) h
    | replace hm hf hr h => exact ih (settled_set hl hn hs hm hf hr) h

/-- When all is settled, every member that is found is replaced by itself. -/
theorem pass_self (hs : Settled pool renew members n) (hp : ∀ k ∈ positions, k < n) :
    Pass pool renew positions members members := by
  induction positions with
  | nil => exact .done
  | cons k positions ih =>
    have ih := ih fun j hj => hp j (List.mem_cons_of_mem _ hj)
    cases hm : members[k]? with
    | none => exact .skip hm ih
    | some m =>
      obtain ⟨p, r, hf⟩ := exists_first hm
      have hr := hs k (hp k List.mem_cons_self) m hm p r hf
      obtain ⟨hlt, rfl⟩ := List.getElem?_eq_some_iff.mp hf.found
      have hset : members.set p members[p] = members := List.set_getElem_self hlt
      exact .replace hm hf hr (by rwa [hset])

/-- A second pass over all members changes nothing. -/
theorem again (hl : ∀ r r', renew r r' → Like pool r' r) (hn : ∀ r r', renew r r' → renew r' r')
    (h : Pass pool renew (List.range members.length) members members') :
    Pass pool renew (List.range members'.length) members' members' := by
  have hs : Settled pool renew members' (0 + members.length) := by
    rw [List.range_eq_range'] at h
    exact settled_range hl hn (fun k hk => absurd hk (Nat.not_lt_zero k)) h
  refine pass_self hs fun k hk => ?_
  rw [h.length, List.mem_range] at hk
  omega

end Pass

end Classfile
