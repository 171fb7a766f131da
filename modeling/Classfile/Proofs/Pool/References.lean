import Classfile.Proofs.Pool.Access
import Classfile.Proofs.Pool.Requests

/-!
What constants refer to. A request that names things by their texts only puts references into the
pool that lead to constants of the right kind, also when it stops halfway. This is what is checked
of given constants, so the table of such a pool makes the same pool again, and all that stands for
texts can be read.
-/
namespace Classfile

open ConstantPool

variable {α β : Type} {pool pool' : ConstantPool} {c : Constant} {i j k : ConstantIndex}
  {role : Role}
  {constants : List Constant} {first : Nat}

namespace ConstantPool

/-- There is a constant with the index, and it can play the role. -/
def Plays (pool : ConstantPool) (role : Role) (i : ConstantIndex) : Prop :=
  ∃ c, pool.get? i = some c ∧ role.accepts c

/-- Everything that the constant refers to plays its role. -/
def Resolves (pool : ConstantPool) (c : Constant) : Prop :=
  ∀ ref ∈ c.references, pool.Plays ref.2 ref.1

theorem Plays.grows (h : pool.Plays role i) (hg : pool.Grows pool') : pool'.Plays role i := by
  obtain ⟨c, hc, hr⟩ := h
  exact ⟨c, hg hc, hr⟩

theorem Resolves.grows (h : pool.Resolves c) (hg : pool.Grows pool') : pool'.Resolves c := by
  intro ref hm
  exact (h ref hm).grows hg

theorem checkReferences_eq_ok : pool.checkReferences c = .ok () ↔ pool.Resolves c := by
  refine Except.forM_eq_ok.trans (forall₂_congr fun ref _ => ?_)
  simp only [Except.discard_eq_ok, require_eq_ok, Plays]

/-- What holds of a pool of which every reference was looked at, wherever its table begins. -/
structure Sound (pool : ConstantPool) : Prop where
  regular : pool.Regular
  extent_le : pool.extent ≤ capacity
  first : pool.FirstFound
  resolves : ∀ i c, pool.get? i = some c → pool.Resolves c

theorem sound_empty : empty.Sound where
  regular := ⟨1, [], rfl⟩
  extent_le := coherent_empty.extent
  first := firstFound_empty
  resolves := by
    intro i c h
    obtain ⟨j, hj⟩ := coherent_empty.lookup_get h
    simp [lookup, empty] at hj

theorem sound_ofTable (h : ofTable (WidthTable.ofList first constants) = .ok pool) :
    pool.Sound := by
  obtain ⟨hx, hp, hrefs⟩ := ofTable_eq_ok h
  have ht : pool.table = WidthTable.ofList first constants := by rw [hp]
  refine ⟨regular_ofTable h, ?_, fun c => lookup_ofTable h, ?_⟩
  · rw [extent, ht]
    exact hx
  · intro i c hc
    rw [get?_eq_some ht, ← WidthTable.ofList_toList] at hc
    exact checkReferences_eq_ok.mp (hrefs _ hc)

theorem get?_of_mem (hr : pool.Regular) (hx : pool.extent ≤ capacity) {entry : Nat × Constant}
    (h : entry ∈ pool.table.toList) : pool.get? ⟨UInt16.ofNat entry.1⟩ = some entry.2 := by
  obtain ⟨first, constants, ht⟩ := hr
  rw [extent, ht, WidthTable.ofList_extent] at hx
  rw [ht, WidthTable.ofList_toList] at h
  rw [get?_eq_some ht]
  simpa only [toNat_ofNat_of_placed hx h] using h

theorem Sound.faithful (hp : pool.Sound) : pool.Faithful :=
  faithful_of_lookup hp.regular hp.extent_le hp.first

/-- One more constant, whose references lead to where they should. -/
theorem Sound.add (hp : pool.Sound) (hr : pool.Resolves c) (h : PoolM.add c pool = .ok i pool') :
    pool'.Sound ∧ pool.Grows pool' ∧ pool'.get? i = some c := by
  obtain ⟨hf, hg, hi⟩ := PoolM.faithful_add hp.faithful h
  refine ⟨⟨hf.regular, hf.extent, hp.first.add h, ?_⟩, hg, hi⟩
  intro j d hd
  rcases PoolM.add_eq_ok h with ⟨-, rfl⟩ | ⟨-, -, rfl, rfl⟩
  · exact hp.resolves j d hd
  · obtain ⟨first, constants, ht⟩ := hp.regular
    rcases (PoolM.get?_push ht).mp hd with hd | ⟨-, rfl⟩
    · exact (hp.resolves j d hd).grows hg
    · exact hr.grows hg

end ConstantPool

/-! ### Requests -/

namespace PoolM

variable {x : PoolM α} {Q R : α → ConstantPool → Prop}

/-- From this pool the computation leads to one that is still sound and has only grown, whether it
succeeds or not. What it gives is as `Q` says. -/
structure Secures (pool : ConstantPool) (x : PoolM α) (Q : α → ConstantPool → Prop) : Prop where
  gives : ∀ ⦃a pool'⦄, x pool = .ok a pool' → pool'.Sound ∧ pool.Grows pool' ∧ Q a pool'
  leaves : ∀ ⦃e pool'⦄, x pool = .error e pool' → pool'.Sound ∧ pool.Grows pool'

theorem Secures.sound (h : Secures pool x Q) : (x.left pool).Sound := by
  cases hx : x pool with
  | ok a pool' =>
    rw [EStateM.left_of_ok hx]
    exact (h.gives hx).1
  | error e pool' =>
    rw [EStateM.left_of_error hx]
    exact (h.leaves hx).1

theorem Secures.mono (h : Secures pool x Q) (hq : ∀ a pool', Q a pool' → R a pool') :
    Secures pool x R where
  gives a pool' ha := by
    obtain ⟨hs, hg, ha⟩ := h.gives ha
    exact ⟨hs, hg, hq a pool' ha⟩
  leaves := h.leaves

/-- The rest of a computation begins with a sound pool, in which nothing has changed its index. -/
theorem Secures.bind {f : α → PoolM β} {R : β → ConstantPool → Prop} (hx : Secures pool x Q)
    (hf : ∀ a mid, mid.Sound → pool.Grows mid → Q a mid → Secures mid (f a) R) :
    Secures pool (x >>= f) R where
  gives b pool' h := by
    obtain ⟨a, mid, ha, h⟩ := EStateM.bind_eq_ok.mp h
    obtain ⟨hs, hg, hq⟩ := hx.gives ha
    obtain ⟨hs', hg', hr⟩ := (hf a mid hs hg hq).gives h
    exact ⟨hs', hg.trans hg', hr⟩
  leaves e pool' h := by
    rcases EStateM.bind_eq_error.mp h with h | ⟨a, mid, ha, h⟩
    · exact hx.leaves h
    · obtain ⟨hs, hg, hq⟩ := hx.gives ha
      obtain ⟨hs', hg'⟩ := (hf a mid hs hg hq).leaves h
      exact ⟨hs', hg.trans hg'⟩

theorem Secures.discard (hx : Secures pool x Q) :
    Secures pool (Functor.discard x) fun _ pool' => ∃ a, Q a pool' where
  gives _ pool' h := by
    obtain ⟨a, ha⟩ := EStateM.discard_eq_ok.mp h
    obtain ⟨hs, hg, hq⟩ := hx.gives ha
    exact ⟨hs, hg, a, hq⟩
  leaves _ _ h := hx.leaves (EStateM.discard_eq_error.mp h)

theorem secures_pure {a : α} (hp : pool.Sound) (hq : Q a pool) : Secures pool (pure a) Q where
  gives b pool' h := by
    obtain ⟨rfl, rfl⟩ := EStateM.pure_eq_ok.mp h
    exact ⟨hp, .refl pool, hq⟩
  leaves e pool' h := by cases h

theorem secures_throw (hp : pool.Sound) (fault : Fault) :
    Secures pool (throw fault : PoolM α) Q where
  gives a pool' h := by cases h
  leaves e pool' h := by
    cases h
    exact ⟨hp, .refl pool⟩

theorem secures_ask {question : ConstantPool → Except Fault α} (hp : pool.Sound)
    (hq : ∀ a, question pool = .ok a → Q a pool) : Secures pool (ask question) Q where
  gives a pool' h := by
    obtain ⟨ha, rfl⟩ := ask_eq_ok.mp h
    exact ⟨hp, .refl pool, hq a ha⟩
  leaves e pool' h := by
    obtain ⟨-, rfl⟩ := ask_eq_error.mp h
    exact ⟨hp, .refl pool⟩

theorem secures_add (hp : pool.Sound) (hr : pool.Resolves c) :
    Secures pool (add c) fun i pool' => pool'.get? i = some c where
  gives _ _ h := hp.add hr h
  leaves e pool' h := by
    rw [add_eq_error h]
    exact ⟨hp, .refl pool⟩

/-- A constant that refers to what was added right before it. -/
theorem secures_addOver {x : PoolM ConstantIndex} (make : ConstantIndex → Constant)
    (hx : Secures pool x fun i pool' => pool'.Plays role i)
    (hmake : ∀ i, (make i).references = [(i, role)]) :
    Secures pool (x >>= fun i => add (make i)) fun i pool' =>
      ∃ j, pool'.get? i = some (make j) := by
  refine hx.bind fun j mid hm _ hj => (secures_add hm ?_).mono fun i _ hi => ⟨j, hi⟩
  rw [Resolves, hmake]
  exact List.forall_mem_singleton.mpr hj

theorem secures_addText (hp : pool.Sound) (text : String) :
    Secures pool (addText text) fun i pool' => pool'.Plays .utf8 i :=
  (secures_add hp fun _ hm => absurd hm List.not_mem_nil).mono fun _ _ hi => ⟨_, hi, rfl⟩

theorem secures_addTypeName (hp : pool.Sound) (name : String) :
    Secures pool (addTypeName name) fun i pool' => pool'.Plays .typeName i :=
  (secures_addOver .typeName (secures_addText hp name) fun _ => rfl).mono
    fun _ _ ⟨_, hi⟩ => ⟨_, hi, rfl⟩

theorem secures_addSignature (hp : pool.Sound) (name descriptor : String) :
    Secures pool (addSignature name descriptor) fun i pool' => pool'.Plays .nameAndType i := by
  refine (secures_addText hp name).bind fun j first hfirst _ hj => ?_
  refine (secures_addText hfirst descriptor).bind fun k mid hm hg hk => ?_
  refine (secures_add hm ?_).mono fun _ _ hi => ⟨_, hi, rfl⟩
  exact List.forall_mem_cons.mpr ⟨hj.grows hg, List.forall_mem_singleton.mpr hk⟩

/-- Fields and methods refer to their owner and to their signature. -/
theorem secures_addMember (make : ConstantIndex → ConstantIndex → Constant) (hp : pool.Sound)
    (hmake : ∀ j k, (make j k).references = [(j, .typeName), (k, .nameAndType)])
    (owner name descriptor : String) :
    Secures pool (do add (make (← addTypeName owner) (← addSignature name descriptor)))
      fun _ _ => True := by
  refine (secures_addTypeName hp owner).bind fun j first hfirst _ hj => ?_
  refine (secures_addSignature hfirst name descriptor).bind fun k mid hm hg hk => ?_
  refine (secures_add hm ?_).mono fun _ _ _ => trivial
  rw [Resolves, hmake]
  exact List.forall_mem_cons.mpr ⟨hj.grows hg, List.forall_mem_singleton.mpr hk⟩

/-- What a handle asks of its member is more than what is checked of the pool. -/
theorem secures_addMethodHandle (hp : pool.Sound) (kind : HandleKind) (member : ConstantIndex) :
    Secures pool (addMethodHandle kind member) fun _ _ => True := by
  have hmember : ∀ c, (if kind.isField then Role.fieldRef else Role.methodRef).accepts c →
      Role.handleMember.accepts c := by
    intro c h
    cases c with
    | fieldRef | methodRef => rfl
    | _ => split at h <;> cases h
  have hask : Secures pool (ask fun pool =>
      pool.require (if kind.isField then .fieldRef else .methodRef) member)
        fun _ pool' => pool'.Plays .handleMember member := by
    refine secures_ask hp fun c hc => ?_
    obtain ⟨hc, hr⟩ := require_eq_ok.mp hc
    exact ⟨c, hc, hmember c hr⟩
  refine hask.discard.bind fun _ mid hm _ hfound => (secures_add hm ?_).mono fun _ _ _ => trivial
  obtain ⟨-, hplays⟩ := hfound
  exact List.forall_mem_singleton.mpr hplays

theorem secures_addAttribute [Payload α] (hp : pool.Sound) (payload : α) :
    Secures pool (addAttribute payload) fun _ _ => True := by
  refine (secures_addText hp (Payload.name α)).bind fun name mid hm _ _ => ?_
  cases Payload.write payload with
  | ok info => exact secures_pure hm trivial
  | error cause => exact secures_throw hm _

end PoolM

namespace ConstantPool

open PoolM

/-- The request says by texts what it is about. A constant that is asked for as such is a number or
a text, and the only index in a request is that of the member of a method handle. -/
def Request.ByName : Request → Prop
  | .constant c => c.references = []
  | _ => True

theorem Sound.after (hp : pool.Sound) {r : Request} (hr : r.ByName) : (pool.after r).Sound := by
  cases r with
  | constant c =>
    refine (secures_add hp ?_).sound
    rw [Resolves, hr]
    exact nofun
  | text t => exact (secures_addText hp t).sound
  | string t => exact (secures_addOver .string (secures_addText hp t) fun _ => rfl).sound
  | typeName name => exact (secures_addTypeName hp name).sound
  | signature name descriptor => exact (secures_addSignature hp name descriptor).sound
  | fieldRef owner name descriptor =>
    exact (secures_addMember .fieldRef hp (fun _ _ => rfl) owner name descriptor).sound
  | methodRef ofInterface owner name descriptor =>
    exact (secures_addMember (.methodRef ofInterface) hp (fun _ _ => rfl) owner name
      descriptor).sound
  | methodType descriptor =>
    exact (secures_addOver .methodType (secures_addText hp descriptor) fun _ => rfl).sound
  | methodHandle kind member => exact (secures_addMethodHandle hp kind member).sound
  | invokeDynamic bootstrap name descriptor =>
    exact (secures_addOver (.invokeDynamic bootstrap)
      (secures_addSignature hp name descriptor) fun _ => rfl).sound
  | attributeOf payload => exact (secures_addAttribute hp payload).sound

theorem Sound.run (hp : pool.Sound) {requests : List Request} (hr : ∀ r ∈ requests, r.ByName) :
    (pool.run requests).Sound := by
  induction requests generalizing pool with
  | nil => exact hp
  | cons r requests ih =>
    rw [List.forall_mem_cons] at hr
    exact ih (hp.after hr.1) hr.2

/-! ### What a sound pool is good for -/

/-- Both pools have the same entries, and whatever is looked up is found at the same index. -/
structure AnswersAs (pool pool' : ConstantPool) : Prop where
  table : pool.table = pool'.table
  lookup : ∀ c, pool.lookup c = pool'.lookup c
  lookupText : ∀ text, pool.lookupText text = pool'.lookupText text
  lookupString : ∀ text, pool.lookupString text = pool'.lookupString text
  lookupTypeName : ∀ name, pool.lookupTypeName name = pool'.lookupTypeName name
  lookupMethodRef : ∀ owner name descriptor,
    pool.lookupMethodRef owner name descriptor = pool'.lookupMethodRef owner name descriptor

theorem answersAs_of_lookup (ht : pool.table = pool'.table)
    (hl : ∀ c, pool.lookup c = pool'.lookup c) : pool.AnswersAs pool' := by
  have htext : ∀ text, pool.lookupText text = pool'.lookupText text := fun text => hl _
  have hname : ∀ name, pool.lookupTypeName name = pool'.lookupTypeName name := by
    intro name
    simp only [ConstantPool.lookupTypeName, htext, hl]
  refine ⟨ht, hl, htext, ?_, hname, ?_⟩
  · intro text
    simp only [ConstantPool.lookupString, htext, hl]
  · intro owner name descriptor
    simp only [ConstantPool.lookupMethodRef, hname, htext, hl]

theorem Sound.exists_ofTable (hp : pool.Sound) :
    ∃ rebuilt, ofTable pool.table = .ok rebuilt ∧ rebuilt.AnswersAs pool := by
  -- only the table decides what an index stands for
  have hr := ofTable_of_references hp.extent_le fun entry he =>
    checkReferences_eq_ok.mpr (hp.resolves _ _ (get?_of_mem hp.regular hp.extent_le he))
  refine ⟨_, hr, answersAs_of_lookup rfl fun c => ?_⟩
  rw [lookup_ofTable hr, hp.first c, ConstantPool.toList, ConstantPool.toList]

/-- Everything that stands for texts can be read. -/
structure Readable (pool : ConstantPool) : Prop where
  typeName : ∀ i, pool.Plays .typeName i → ∃ name, pool.typeName i = .ok name
  string : ∀ i, pool.Plays .string i → ∃ text, pool.string i = .ok text
  signature : ∀ i, pool.Plays .nameAndType i → ∃ texts, pool.signature i = .ok texts
  member : ∀ i, pool.Plays .member i → ∃ texts, pool.member i = .ok texts

theorem exists_text (h : pool.Plays .utf8 i) : ∃ text, pool.get? i = some (.utf8 text) := by
  obtain ⟨c, hc, hr⟩ := h
  cases c with
  | utf8 text => exact ⟨text, hc⟩
  | _ => cases hr

theorem Sound.readable (hp : pool.Sound) : pool.Readable := by
  have hname : ∀ i, pool.Plays .typeName i → ∃ name, pool.typeName i = .ok name := by
    intro i ⟨c, hc, hr⟩
    cases c with
    | typeName j =>
      obtain ⟨name, hn⟩ := exists_text (hp.resolves i _ hc _ List.mem_cons_self)
      exact ⟨name, typeName_eq_ok.mpr ⟨j, hc, hn⟩⟩
    | _ => cases hr
  have hsignature : ∀ i, pool.Plays .nameAndType i → ∃ texts, pool.signature i = .ok texts := by
    intro i ⟨c, hc, hr⟩
    cases c with
    | nameAndType j k =>
      obtain ⟨hj, hk⟩ := List.forall_mem_cons.mp (hp.resolves i _ hc)
      obtain ⟨name, hn⟩ := exists_text hj
      obtain ⟨descriptor, hd⟩ := exists_text (hk _ List.mem_cons_self)
      exact ⟨(name, descriptor), signature_eq_ok.mpr ⟨j, k, hc, hn, hd⟩⟩
    | _ => cases hr
  refine ⟨hname, ?_, hsignature, ?_⟩
  · intro i ⟨c, hc, hr⟩
    cases c with
    | string j =>
      obtain ⟨text, ht⟩ := exists_text (hp.resolves i _ hc _ List.mem_cons_self)
      exact ⟨text, string_eq_ok.mpr ⟨j, hc, ht⟩⟩
    | _ => cases hr
  · intro i ⟨c, hc, hr⟩
    obtain ⟨j, k, hjoins, hrefs⟩ : ∃ j k, Joins c j k ∧
        c.references = [(j, .typeName), (k, .nameAndType)] := by
      cases c with
      | fieldRef j k => exact ⟨j, k, .inl rfl, rfl⟩
      | methodRef ofInterface j k => exact ⟨j, k, .inr ⟨ofInterface, rfl⟩, rfl⟩
      | _ => cases hr
    have hres := hp.resolves i c hc
    rw [Resolves, hrefs] at hres
    obtain ⟨hj, hk⟩ := List.forall_mem_cons.mp hres
    obtain ⟨owner, ho⟩ := hname j hj
    obtain ⟨texts, hs⟩ := hsignature k (hk _ List.mem_cons_self)
    exact ⟨_, member_eq_ok.mpr ⟨c, j, k, hc, hjoins, ho, hs⟩⟩

/-- After any requests that say by texts what they are about, to a new pool or to one of given
constants, the table of the pool makes a pool again, which answers as this one does, and all that
stands for texts can be read. -/
theorem ofTable_run {start pool : ConstantPool} {requests : List Request}
    (hs : start = empty ∨
      ∃ first constants, ofTable (WidthTable.ofList first constants) = .ok start)
    (hn : ∀ r ∈ requests, r.ByName) (hr : start.run requests = pool) :
    (∃ rebuilt, ofTable pool.table = .ok rebuilt ∧ rebuilt.AnswersAs pool) ∧ pool.Readable := by
  have hstart : start.Sound := by
    rcases hs with rfl | ⟨first, constants, h⟩
    · exact sound_empty
    · exact sound_ofTable h
  have hp : pool.Sound := hr ▸ hstart.run hn
  exact ⟨hp.exists_ofTable, hp.readable⟩

/-- A class before its name, and the name twice. A handle of a field is refused a class for its
member, and a field of the class is added. -/
theorem ofTable_run_forward : ∃ start pool rebuilt,
    ofTable (WidthTable.ofList 1 [.typeName ⟨2⟩, .utf8 "A", .utf8 "A"]) = .ok start ∧
    start.run [.methodHandle .getField ⟨1⟩, .fieldRef "A" "x" "I"] = pool ∧
    ofTable pool.table = .ok rebuilt ∧
    rebuilt.lookupTypeName "A" = pool.lookupTypeName "A" ∧
    ∃ name, pool.typeName ⟨1⟩ = .ok name := by
  obtain ⟨start, hs⟩ : ∃ start,
    ofTable (WidthTable.ofList 1 [.typeName ⟨2⟩, .utf8 "A", .utf8 "A"]) = .ok start := ⟨_, rfl⟩
  have hn : ∀ r ∈ [.methodHandle .getField ⟨1⟩, .fieldRef "A" "x" "I"], Request.ByName r :=
    List.forall_mem_cons.mpr ⟨trivial, List.forall_mem_singleton.mpr trivial⟩
  obtain ⟨⟨rebuilt, hr, ha⟩, hread⟩ := ofTable_run (.inr ⟨1, _, hs⟩) hn rfl
  have hc := coherent_ofTable hs
  have hfirst : start.Plays .typeName ⟨1⟩ := by
    obtain ⟨-, rfl, -⟩ := ofTable_eq_ok hs
    exact ⟨.typeName ⟨2⟩, rfl, rfl⟩
  have hgrows := hc.grows_run [.methodHandle .getField ⟨1⟩, .fieldRef "A" "x" "I"]
  exact ⟨start, _, rebuilt, hs, rfl, hr, ha.lookupTypeName "A",
    hread.typeName ⟨1⟩ (hfirst.grows hgrows)⟩

end ConstantPool

end Classfile
