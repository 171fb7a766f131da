import Classfile.Proofs.Pool.References

/-!
Whether the table of a pool that has grown makes a pool again. A constant that is added only needs
what it refers to to be there; of given constants it is also asked whether what they refer to can
play its role. The two agree on a constant just if its references lead to the right kinds, and a
pool that was once given such a constant stays refused.
-/
namespace Classfile

open ConstantPool

variable {pool pool' : ConstantPool} {c : Constant} {i : ConstantIndex} {e : Fault}

namespace ConstantPool

/-- Whatever the constant refers to is there, of the right kind or not. -/
def Finds (pool : ConstantPool) (c : Constant) : Prop :=
  ∀ ref ∈ c.references, ∃ d, pool.get? ref.1 = some d

/-- The first reference of the constant that leads to nothing that can play its role. -/
def Misleads (pool : ConstantPool) (c : Constant) (ref : ConstantIndex × Role) : Prop :=
  ∃ before after, c.references = before ++ ref :: after ∧
    (∀ r ∈ before, pool.Plays r.2 r.1) ∧ ¬ pool.Plays ref.2 ref.1

theorem Resolves.finds (h : pool.Resolves c) : pool.Finds c := by
  intro ref hm
  obtain ⟨d, hd, -⟩ := h ref hm
  exact ⟨d, hd⟩

theorem Finds.grows (h : pool.Finds c) (hg : pool.Grows pool') : pool'.Finds c := by
  intro ref hm
  obtain ⟨d, hd⟩ := h ref hm
  exact ⟨d, hg hd⟩

/-- What is there keeps its kind, so growing makes no reference any better. -/
theorem Finds.plays_iff (h : pool.Finds c) (hg : pool.Grows pool') {ref : ConstantIndex × Role}
    (hm : ref ∈ c.references) : pool'.Plays ref.2 ref.1 ↔ pool.Plays ref.2 ref.1 := by
  constructor
  · rintro ⟨d, hd, hr⟩
    obtain ⟨d', hd'⟩ := h ref hm
    cases (hg hd').symm.trans hd
    exact ⟨d, hd', hr⟩
  · intro hp
    exact hp.grows hg

theorem Finds.resolves_iff (h : pool.Finds c) (hg : pool.Grows pool') :
    pool'.Resolves c ↔ pool.Resolves c :=
  forall₂_congr fun _ hm => h.plays_iff hg hm

theorem Finds.misleads_iff (h : pool.Finds c) (hg : pool.Grows pool')
    {ref : ConstantIndex × Role} : pool'.Misleads c ref ↔ pool.Misleads c ref := by
  refine exists₂_congr fun before after => and_congr_right fun hs => and_congr ?_ ?_
  · refine forall₂_congr fun r hr => h.plays_iff hg ?_
    rw [hs]
    exact List.mem_append_left _ hr
  · exact not_congr (h.plays_iff hg (hs ▸ List.mem_append_cons_self))

theorem Misleads.not_resolves {ref : ConstantIndex × Role} (h : pool.Misleads c ref) :
    ¬ pool.Resolves c := by
  obtain ⟨before, after, hs, -, hn⟩ := h
  intro hr
  exact hn (hr ref (hs ▸ List.mem_append_cons_self))

/-! ### Faults of given constants -/

theorem require_eq_error {role : Role} {d : Constant} (hd : pool.get? i = some d) :
    pool.require role i = .error e ↔ role.accepts d = false ∧ e = .wrongConstant i role := by
  rw [require, get_eq_ok.mpr hd, Except.ok_bind]
  cases hr : role.accepts d with
  | true => simp
  | false => simp [eq_comm]

theorem checkReferences_eq_error (h : pool.Finds c) : pool.checkReferences c = .error e ↔
    ∃ ref, pool.Misleads c ref ∧ e = .wrongConstant ref.1 ref.2 := by
  have hone : ∀ ref ∈ c.references, ∀ e,
      (discard (pool.require ref.2 ref.1) : Except Fault Unit) = .error e ↔
        ¬ pool.Plays ref.2 ref.1 ∧ e = .wrongConstant ref.1 ref.2 := by
    intro ref hm e
    obtain ⟨d, hd⟩ := h ref hm
    have hplays : pool.Plays ref.2 ref.1 ↔ ref.2.accepts d = true := by
      simp [Plays, hd]
    rw [Except.discard_eq_error, require_eq_error hd, hplays, Bool.not_eq_true]
  have hok : ∀ ref : ConstantIndex × Role,
      (discard (pool.require ref.2 ref.1) : Except Fault Unit) = .ok () ↔
        pool.Plays ref.2 ref.1 := by
    intro ref
    simp only [Except.discard_eq_ok, require_eq_ok, Plays]
  refine Except.forM_eq_error.trans ?_
  constructor
  · rintro ⟨before, ref, after, hs, hb, he⟩
    have hm : ref ∈ c.references := hs ▸ List.mem_append_cons_self
    obtain ⟨hn, he⟩ := (hone ref hm e).mp he
    exact ⟨ref, ⟨before, after, hs, fun r hr => (hok r).mp (hb r hr), hn⟩, he⟩
  · rintro ⟨ref, ⟨before, after, hs, hb, hn⟩, he⟩
    have hm : ref ∈ c.references := hs ▸ List.mem_append_cons_self
    exact ⟨before, ref, after, hs, fun r hr => (hok r).mpr (hb r hr), (hone ref hm e).mpr ⟨hn, he⟩⟩

/-! ### Pools whose references do not dangle -/

/-- The map gives the first index of every constant, and no reference dangles. -/
structure Closed (pool : ConstantPool) : Prop where
  regular : pool.Regular
  extent_le : pool.extent ≤ capacity
  first : pool.FirstFound
  finds : ∀ i c, pool.get? i = some c → pool.Finds c

theorem Sound.closed (h : pool.Sound) : pool.Closed where
  regular := h.regular
  extent_le := h.extent_le
  first := h.first
  finds i c hc := (h.resolves i c hc).finds

end ConstantPool

/-- What is added finds all that it refers to. -/
theorem PoolM.finds_of_add (h : PoolM.add c pool = .ok i pool') (hn : pool.lookup c = none) :
    pool.Finds c := by
  intro ref hm
  unfold PoolM.add at h
  simp only [hn] at h
  split at h
  · cases h
  · rename_i hf
    have hsome := List.find?_eq_none.mp hf ref hm
    cases hd : pool.get? ref.1 with
    | some d => exact ⟨d, rfl⟩
    | none => simp [hd] at hsome

namespace ConstantPool

theorem Closed.add (hp : pool.Closed) (h : PoolM.add c pool = .ok i pool') :
    pool'.Closed ∧ pool.Grows pool' ∧ pool.Finds c ∧ pool'.get? i = some c := by
  have hfaithful := faithful_of_lookup hp.regular hp.extent_le hp.first
  obtain ⟨hf, hg, hi⟩ := PoolM.faithful_add hfaithful h
  have hfinds : pool.Finds c := by
    cases hl : pool.lookup c with
    | some j => exact hp.finds j c (hfaithful.get_lookup hl)
    | none => exact PoolM.finds_of_add h hl
  refine ⟨⟨hf.regular, hf.extent, hp.first.add h, ?_⟩, hg, hfinds, hi⟩
  intro j d hd
  rcases PoolM.add_eq_ok h with ⟨-, rfl⟩ | ⟨-, -, rfl, rfl⟩
  · exact hp.finds j d hd
  · obtain ⟨first, constants, ht⟩ := hp.regular
    rcases (PoolM.get?_push ht).mp hd with hd | ⟨-, rfl⟩
    · exact (hp.finds j d hd).grows hg
    · exact hfinds.grows hg

theorem Obtained.closed (h : pool.Obtained) : pool.Closed := by
  induction h with
  | empty => exact sound_empty.closed
  | ofTable h => exact (sound_ofTable h).closed
  | add _ h ih => exact (ih.add h).1

/-- A pool that only grew was sound if it is sound now. -/
theorem Closed.sound_of_grows (hp : pool.Closed) (hg : pool.Grows pool') (h : pool'.Sound) :
    pool.Sound where
  regular := hp.regular
  extent_le := hp.extent_le
  first := hp.first
  resolves i c hc := ((hp.finds i c hc).resolves_iff hg).mp (h.resolves i c (hg hc))

theorem Closed.get?_of_mem (hp : pool.Closed) {entry : ConstantIndex × Constant}
    (hm : entry ∈ pool.toList) : pool.get? entry.1 = some entry.2 := by
  obtain ⟨placed, hplaced, rfl⟩ := List.mem_map.mp hm
  exact ConstantPool.get?_of_mem hp.regular hp.extent_le hplaced

/-- It is enough to look at the constants one after another. -/
theorem Closed.sound_iff (hp : pool.Closed) :
    pool.Sound ↔ ∀ entry ∈ pool.toList, pool.Resolves entry.2 := by
  constructor
  · intro h entry hm
    exact h.resolves _ _ (hp.get?_of_mem hm)
  · intro h
    refine ⟨hp.regular, hp.extent_le, hp.first, fun i c hc => ?_⟩
    obtain ⟨first, constants, ht⟩ := hp.regular
    rw [get?_eq_some ht, ← WidthTable.ofList_toList, ← ht] at hc
    exact h (⟨UInt16.ofNat i.value.toNat⟩, c) (List.mem_map_of_mem hc)

/-- With room for all of them, given constants are refused only for what they refer to. -/
theorem ofTable_eq_error (hx : pool.extent ≤ capacity) : ofTable pool.table = .error e ↔
    ∃ before entry after, pool.toList = before ++ entry :: after ∧
      (∀ x ∈ before, pool.checkReferences x.2 = .ok ()) ∧
        pool.checkReferences entry.2 = .error e := by
  -- what an index stands for is looked up in the table alone
  have hforM : ofTable pool.table = .error e ↔
      (pool.toList.forM fun entry => pool.checkReferences entry.2) = .error e := by
    have hroom : ¬ pool.table.extent > capacity := Nat.not_lt.mpr hx
    rw [toList, List.forM_eq_forM, List.forM_map]
    unfold ofTable
    rw [if_neg hroom]
    refine Except.bind_eq_error.trans ⟨fun h => ?_, .inl⟩
    rcases h with h | ⟨_, -, h⟩
    · exact h
    · cases h
  exact hforM.trans Except.forM_eq_error

/-- The first constant that is refused, and the first of its references for which it is. -/
theorem Closed.ofTable_eq_error (hp : pool.Closed) : ofTable pool.table = .error e ↔
    ∃ before entry after ref, pool.toList = before ++ entry :: after ∧
      (∀ x ∈ before, pool.Resolves x.2) ∧ pool.Misleads entry.2 ref ∧
        e = .wrongConstant ref.1 ref.2 := by
  have hfinds : ∀ entry ∈ pool.toList, pool.Finds entry.2 :=
    fun entry hm => hp.finds _ _ (hp.get?_of_mem hm)
  refine (ConstantPool.ofTable_eq_error hp.extent_le).trans ?_
  simp only [checkReferences_eq_ok]
  constructor
  · rintro ⟨before, entry, after, hs, hb, he⟩
    have hm : entry ∈ pool.toList := hs ▸ List.mem_append_cons_self
    obtain ⟨ref, hr, he⟩ := (checkReferences_eq_error (hfinds entry hm)).mp he
    exact ⟨before, entry, after, ref, hs, hb, hr, he⟩
  · rintro ⟨before, entry, after, ref, hs, hb, hr, he⟩
    have hm : entry ∈ pool.toList := hs ▸ List.mem_append_cons_self
    exact ⟨before, entry, after, hs, hb,
      (checkReferences_eq_error (hfinds entry hm)).mpr ⟨ref, hr, he⟩⟩

theorem Closed.sound_of_ofTable {rebuilt : ConstantPool} (hp : pool.Closed)
    (h : ofTable pool.table = .ok rebuilt) : pool.Sound := by
  obtain ⟨-, rfl, hr⟩ := ofTable_eq_ok h
  apply hp.sound_iff.mpr
  intro entry hm
  obtain ⟨placed, hplaced, rfl⟩ := List.mem_map.mp hm
  exact checkReferences_eq_ok.mp (hr placed hplaced)

/-- The table of the pool makes a pool again, which answers as this one does. -/
def Rebuilds (pool : ConstantPool) : Prop :=
  ∃ rebuilt, ofTable pool.table = .ok rebuilt ∧ rebuilt.AnswersAs pool

theorem Closed.rebuilds_iff (hp : pool.Closed) : pool.Rebuilds ↔ pool.Sound := by
  constructor
  · rintro ⟨rebuilt, h, -⟩
    exact hp.sound_of_ofTable h
  · intro h
    exact h.exists_ofTable

/-! ### One constant more -/

theorem Sound.add_iff (hp : pool.Sound) (h : PoolM.add c pool = .ok i pool') :
    pool'.Sound ↔ pool.Resolves c := by
  obtain ⟨-, hg, hf, hi⟩ := hp.closed.add h
  constructor
  · intro hs
    exact (hf.resolves_iff hg).mp (hs.resolves i c hi)
  · intro hr
    exact (hp.add hr h).1

/-- The constant that was added is the only one for which the table can be refused now. -/
theorem Sound.ofTable_add_eq_error (hp : pool.Sound) (h : PoolM.add c pool = .ok i pool') :
    ofTable pool'.table = .error e ↔
      ∃ ref, pool.Misleads c ref ∧ e = .wrongConstant ref.1 ref.2 := by
  obtain ⟨hc, hg, hf, hi⟩ := hp.closed.add h
  have hold : ∀ entry ∈ pool.toList, pool'.Resolves entry.2 := by
    intro entry hm
    exact (hp.resolves _ _ (hp.closed.get?_of_mem hm)).grows hg
  refine hc.ofTable_eq_error.trans ?_
  constructor
  · rintro ⟨before, entry, after, ref, hs, -, hm, he⟩
    have hentry : entry ∈ pool'.toList := hs ▸ List.mem_append_cons_self
    rcases PoolM.add_eq_ok h with ⟨-, rfl⟩ | ⟨-, -, rfl, rfl⟩
    · exact absurd (hold entry hentry) hm.not_resolves
    · rw [toList_push, List.mem_append, List.mem_singleton] at hentry
      rcases hentry with hentry | rfl
      · exact absurd (hold entry hentry) hm.not_resolves
      · exact ⟨ref, (hf.misleads_iff hg).mp hm, he⟩
  · rintro ⟨ref, hm, he⟩
    rcases PoolM.add_eq_ok h with ⟨-, rfl⟩ | ⟨-, -, rfl, rfl⟩
    · exact absurd (hp.resolves i c hi) hm.not_resolves
    · exact ⟨pool.toList, _, [], ref, toList_push, hold, (hf.misleads_iff hg).mpr hm, he⟩

/-- A table that is refused stays refused for the same reason, whatever is added behind. -/
theorem Closed.refused_add (hp : pool.Closed) (he : ofTable pool.table = .error e)
    (h : PoolM.add c pool = .ok i pool') : ofTable pool'.table = .error e := by
  obtain ⟨hc, hg, -, -⟩ := hp.add h
  obtain ⟨before, entry, after, ref, hs, hb, hm, he⟩ := hp.ofTable_eq_error.mp he
  have hf : pool.Finds entry.2 :=
    hp.finds _ _ (hp.get?_of_mem (hs ▸ List.mem_append_cons_self))
  have hs' : ∃ more, pool'.toList = before ++ entry :: more := by
    rcases PoolM.add_eq_ok h with ⟨-, rfl⟩ | ⟨-, -, rfl, rfl⟩
    · exact ⟨after, hs⟩
    · rw [toList_push, hs, List.append_assoc, List.cons_append]
      exact ⟨_, rfl⟩
  obtain ⟨more, hs'⟩ := hs'
  refine hc.ofTable_eq_error.mpr ⟨before, entry, more, ref, hs', fun x hx => ?_, ?_, he⟩
  · exact (hb x hx).grows hg
  · exact (hf.misleads_iff hg).mpr hm

/-! ### After any requests -/

/-- If the pool takes what is asked for as a constant, what the constant refers to plays its role. -/
def Request.Fits (pool : ConstantPool) : Request → Prop
  | .constant c => ∀ i pool', PoolM.add c pool = .ok i pool' → pool.Resolves c
  | _ => True

theorem run_append (pool : ConstantPool) (before after : List Request) :
    pool.run (before ++ after) = (pool.run before).run after :=
  List.foldl_append

theorem Closed.run (hp : pool.Closed) (requests : List Request) :
    (pool.run requests).Closed ∧ pool.Grows (pool.run requests) := by
  refine run_invariant (P := fun pool' => pool'.Closed ∧ pool.Grows pool') ?_ requests
    ⟨hp, .refl pool⟩
  rintro mid c i pool' ⟨hm, hg⟩ h
  obtain ⟨hc, hg', -⟩ := hm.add h
  exact ⟨hc, hg.trans hg'⟩

theorem Closed.refused_run (hp : pool.Closed) (he : ofTable pool.table = .error e)
    (requests : List Request) : ofTable (pool.run requests).table = .error e := by
  refine (run_invariant (P := fun pool => pool.Closed ∧ ofTable pool.table = .error e) ?_ requests
    ⟨hp, he⟩).2
  rintro pool c i pool' ⟨hp, he⟩ h
  exact ⟨(hp.add h).1, hp.refused_add he h⟩

theorem after_constant (h : PoolM.add c pool = .ok i pool') :
    pool.after (.constant c) = pool' := by
  rw [after, EStateM.left, h]

theorem Sound.after_iff (hp : pool.Sound) {r : Request} :
    (pool.after r).Sound ↔ r.Fits pool := by
  cases r with
  | constant c =>
    rw [ConstantPool.after, EStateM.left]
    cases h : PoolM.add c pool with
    | ok i pool' =>
      refine (hp.add_iff h).trans ⟨fun hr _ _ _ => hr, fun hf => hf i pool' h⟩
    | error e pool' =>
      rw [PoolM.add_eq_error h]
      exact iff_of_true hp fun i pool' h' => by cases h.symm.trans h'
  | _ => exact iff_of_true (hp.after trivial) trivial

theorem Sound.run_iff {requests : List Request} (hp : pool.Sound) : (pool.run requests).Sound ↔
    ∀ before r after, requests = before ++ r :: after → r.Fits (pool.run before) := by
  induction requests generalizing pool with
  | nil => simp [ConstantPool.run, hp]
  | cons r requests ih =>
    have hc := (hp.closed.run [r]).1
    constructor
    · intro h
      have hr : (pool.after r).Sound := hc.sound_of_grows (hc.run requests).2 h
      rintro (_ | ⟨r', before⟩) r'' after hs
      · cases hs
        exact hp.after_iff.mp hr
      · cases hs
        exact (ih hr).mp h before r'' after rfl
    · intro h
      have hr : (pool.after r).Sound := hp.after_iff.mpr (h [] r requests rfl)
      refine (ih hr).mpr fun before r' after hs => ?_
      exact h (r :: before) r' after (congrArg (r :: ·) hs)

/-- What does not fit is a constant that was taken, and the table is refused for it from then on. -/
theorem Sound.exists_refusal (hp : pool.Sound) {r : Request} (hn : ¬ r.Fits pool) :
    ∃ c i mid ref, r = .constant c ∧ PoolM.add c pool = .ok i mid ∧ pool.Misleads c ref ∧
      ofTable (pool.after r).table = .error (.wrongConstant ref.1 ref.2) := by
  cases r with
  | constant c =>
    simp only [Request.Fits, not_forall] at hn
    obtain ⟨i, mid, ha, hn⟩ := hn
    have hmid := (hp.closed.add ha).1
    cases ht : ofTable mid.table with
    | ok rebuilt => exact absurd ((hp.add_iff ha).mp (hmid.sound_of_ofTable ht)) hn
    | error e =>
      obtain ⟨ref, hm, rfl⟩ := (hp.ofTable_add_eq_error ha).mp ht
      rw [← after_constant ha] at ht
      exact ⟨c, i, mid, ref, rfl, ha, hm, ht⟩
  | _ => exact absurd trivial hn

/-- The first constant that was taken and does not fit is what the table is refused for. -/
theorem Sound.ofTable_run_eq_error {requests : List Request} (hp : pool.Sound) :
    ofTable (pool.run requests).table = .error e ↔
      ∃ before c after ref, requests = before ++ .constant c :: after ∧
        (pool.run before).Sound ∧ (∃ i mid, PoolM.add c (pool.run before) = .ok i mid) ∧
        (pool.run before).Misleads c ref ∧ e = .wrongConstant ref.1 ref.2 := by
  constructor
  · intro h
    induction requests generalizing pool with
    | nil =>
      obtain ⟨rebuilt, hr, -⟩ := hp.exists_ofTable
      cases hr.symm.trans h
    | cons r requests ih =>
      by_cases hf : r.Fits pool
      · obtain ⟨before, c, after, ref, rfl, hb, hg, hm⟩ := ih (hp.after_iff.mpr hf) h
        exact ⟨r :: before, c, after, ref, rfl, hb, hg, hm⟩
      · obtain ⟨c, i, mid, ref, rfl, ha, hm, ht⟩ := hp.exists_refusal hf
        have h' := (hp.closed.run [.constant c]).1.refused_run ht requests
        cases h'.symm.trans h
        exact ⟨[], c, requests, ref, rfl, hp, ⟨i, mid, ha⟩, hm, rfl⟩
  · rintro ⟨before, c, after, ref, rfl, hb, ⟨i, mid, ha⟩, hm, he⟩
    rw [run_append]
    have hrefused := (hb.ofTable_add_eq_error ha).mpr ⟨ref, hm, he⟩
    have h := (hb.closed.add ha).1.refused_run hrefused after
    rwa [← after_constant ha] at h

/-- Let the table of a pool make a pool. When one more constant was added, it still does if all that
the constant refers to plays its role, and is refused for the first reference that does not
otherwise. After any requests it does if this is so of every constant that was taken as such, and is
refused for the first one of which it is not. -/
theorem rebuilds_run {rebuilt : ConstantPool} (hp : pool.Obtained)
    (h : ofTable pool.table = .ok rebuilt) :
    (∀ c i pool', PoolM.add c pool = .ok i pool' →
      (pool'.Rebuilds ↔ pool.Resolves c) ∧
      ∀ e, ofTable pool'.table = .error e ↔
        ∃ ref, pool.Misleads c ref ∧ e = .wrongConstant ref.1 ref.2) ∧
    ∀ requests,
      ((pool.run requests).Rebuilds ↔
        ∀ before r after, requests = before ++ r :: after → r.Fits (pool.run before)) ∧
      ∀ e, ofTable (pool.run requests).table = .error e ↔
        ∃ before c after ref, requests = before ++ .constant c :: after ∧
          (pool.run before).Rebuilds ∧ (∃ i mid, PoolM.add c (pool.run before) = .ok i mid) ∧
          (pool.run before).Misleads c ref ∧ e = .wrongConstant ref.1 ref.2 := by
  have hc := hp.closed
  have hs := hc.sound_of_ofTable h
  refine ⟨fun c i pool' ha => ⟨?_, fun e => hs.ofTable_add_eq_error ha⟩, fun requests =>
    ⟨?_, fun e => ?_⟩⟩
  · exact (hc.add ha).1.rebuilds_iff.trans (hs.add_iff ha)
  · exact (hc.run requests).1.rebuilds_iff.trans hs.run_iff
  · simp only [(hc.run _).1.rebuilds_iff]
    exact hs.ofTable_run_eq_error

/-- To a class and its name, a string of the name and one of the class are added. Only then is the
table refused, for the second of them. -/
theorem rebuilds_run_strings : ∃ start,
    ofTable (WidthTable.ofList 1 [.typeName ⟨2⟩, .utf8 "A"]) = .ok start ∧
    (start.run [.constant (.string ⟨2⟩)]).Rebuilds ∧
    ofTable (start.run [.constant (.string ⟨2⟩), .constant (.string ⟨1⟩)]).table =
      .error (.wrongConstant ⟨1⟩ .utf8) := by
  obtain ⟨start, hs⟩ : ∃ start,
    ofTable (WidthTable.ofList 1 [.typeName ⟨2⟩, .utf8 "A"]) = .ok start := ⟨_, rfl⟩
  have hfirst : start.FirstFound := fun c => lookup_ofTable hs
  obtain ⟨-, rfl, -⟩ := ofTable_eq_ok hs
  obtain ⟨mid, hname, hclass, hget⟩ : ∃ mid, PoolM.add (.string ⟨2⟩) _ = .ok ⟨3⟩ mid ∧
      (∃ last, PoolM.add (.string ⟨1⟩) mid = .ok ⟨4⟩ last) ∧
      mid.get? ⟨1⟩ = some (.typeName ⟨2⟩) := by
    have hname := PoolM.add_of_absent (hfirst (.string ⟨2⟩)) (List.forall_mem_singleton.mpr rfl)
    exact ⟨_, hname, ⟨_, PoolM.add_of_absent (hfirst.add hname (.string ⟨1⟩))
      (List.forall_mem_singleton.mpr rfl)⟩, rfl⟩
  have hmid : ConstantPool.run _ [.constant (.string ⟨2⟩)] = mid := after_constant hname
  obtain ⟨hone, hall⟩ := rebuilds_run (.ofTable hs) hs
  have hfits := (hone _ _ _ hname).1.mpr (List.forall_mem_singleton.mpr ⟨.utf8 "A", rfl, rfl⟩)
  rw [← hmid] at hfits hclass hget
  obtain ⟨last, hclass⟩ := hclass
  refine ⟨_, hs, hfits, ((hall _).2 _).mpr
    ⟨[_], .string ⟨1⟩, [], (⟨1⟩, .utf8), rfl, hfits, ⟨_, last, hclass⟩, ?_, rfl⟩⟩
  refine ⟨[], [], rfl, nofun, ?_⟩
  rintro ⟨c, hc, hr⟩
  cases hget.symm.trans hc
  cases hr

/-- A number is all there is, and a handle of a field is added whose member is the number. The table
of the pool does not make one again. -/
theorem rebuilds_not_handleOfNumber : ∃ start pool,
    ofTable (WidthTable.ofList 1 [.integer 7]) = .ok start ∧
    PoolM.add (.methodHandle .getField ⟨1⟩) start = .ok ⟨2⟩ pool ∧
    ofTable pool.table = .error (.wrongConstant ⟨1⟩ .handleMember) := by
  obtain ⟨start, hs⟩ : ∃ start,
    ofTable (WidthTable.ofList 1 [.integer 7]) = .ok start := ⟨_, rfl⟩
  have hl : start.lookup (.methodHandle .getField ⟨1⟩) = none := by
    rw [lookup_ofTable hs]
    obtain ⟨-, rfl, -⟩ := ofTable_eq_ok hs
    rfl
  obtain ⟨-, rfl, -⟩ := ofTable_eq_ok hs
  have ha := PoolM.add_of_absent hl fun ref hm => by
    cases List.mem_singleton.mp hm
    rfl
  exact ⟨_, _, hs, ha, rfl⟩

end ConstantPool

end Classfile
