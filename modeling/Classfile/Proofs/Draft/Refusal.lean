import Classfile.Draft.Field
import Classfile.Draft.Method
import Classfile.Proofs.Pool.Requests

/-!
What an edit of a draft leaves, whether it is taken or refused. Nothing is ever written to the draft
before the last reason for a refusal is behind, but constants that were added by then stay in the
pool.
-/
namespace Classfile

open EStateM (Maintains maintains_pure maintains_throw)

namespace DraftM

variable {δ α β : Type} {x : DraftM δ α} {s t : δ × ConstantPool} {a : α} {fault : Fault}
  {question : δ → ConstantPool → Except Fault α} {f : δ → δ}

theorem ask_eq_ok : ask question s = .ok a t ↔ question s.1 s.2 = .ok a ∧ s = t := by
  rw [ask]
  cases question s.1 s.2 <;> simp

theorem ask_eq_error : ask question s = .error fault t ↔
    question s.1 s.2 = .error fault ∧ s = t := by
  rw [ask]
  cases question s.1 s.2 <;> simp

theorem onPool_eq_ok {x : PoolM α} : onPool x s = .ok a t ↔
    ∃ pool, x s.2 = .ok a pool ∧ (s.1, pool) = t := by
  rw [onPool]
  cases x s.2 <;> simp

theorem change_eq_ok : change f s = .ok () t ↔ (f s.1, s.2) = t := by
  change EStateM.Result.ok () (f s.1, s.2) = .ok () t ↔ _
  simp

theorem result_eq_ok {x : DraftM δ Unit} {d e : δ} {pool : ConstantPool} :
    x.result d pool = .ok e ↔ ∃ pool', x (d, pool) = .ok () (e, pool') := by
  rw [result]
  cases x (d, pool) <;> simp [Prod.ext_iff]

section

variable {b : β}

theorem draft_bind {g : δ → DraftM δ α} : (draft >>= g) s = g s.1 s := rfl

theorem change_bind {g : Unit → DraftM δ α} : (change f >>= g) s = g () (f s.1, s.2) := rfl

theorem ask_bind_eq_ok {g : α → DraftM δ β} : (ask question >>= g) s = .ok b t ↔
    ∃ a, question s.1 s.2 = .ok a ∧ g a s = .ok b t := by
  simp only [EStateM.bind_eq_ok, ask_eq_ok, and_assoc, exists_and_left, exists_eq_left']

theorem onPool_bind_eq_ok {x : PoolM α} {g : α → DraftM δ β} : (onPool x >>= g) s = .ok b t ↔
    ∃ a pool, x s.2 = .ok a pool ∧ g a (s.1, pool) = .ok b t := by
  simp only [EStateM.bind_eq_ok, onPool_eq_ok]
  constructor
  · rintro ⟨a, _, ⟨pool, hx, rfl⟩, h⟩
    exact ⟨a, pool, hx, h⟩
  · rintro ⟨a, pool, hx, h⟩
    exact ⟨a, _, ⟨pool, hx, rfl⟩, h⟩

end

theorem maintains_onPool {P : ConstantPool → Prop} {x : PoolM α} (hx : Maintains P x) :
    Maintains (fun s => P s.2) (onPool x : DraftM δ α) := by
  intro s hs
  cases h : x s.2 with
  | ok a pool =>
    rw [EStateM.left, onPool, h]
    exact hx.of_ok h hs
  | error fault pool =>
    rw [EStateM.left, onPool, h]
    exact hx.of_error h hs

theorem maintains_ask {P : δ × ConstantPool → Prop} : Maintains P (ask question) := by
  intro s hs
  cases h : question s.1 s.2 with
  | ok a =>
    rw [EStateM.left, ask, h]
    exact hs
  | error fault =>
    rw [EStateM.left, ask, h]
    exact hs

theorem maintains_change {P : ConstantPool → Prop} :
    Maintains (fun s => P s.2) (change f : DraftM δ Unit) := fun _ hs => hs

/-- Whatever comes of the computation, the draft is as it was. -/
def Reads (x : DraftM δ α) : Prop := ∀ d, Maintains (fun s => s.1 = d) x

theorem maintains_draft {P : δ × ConstantPool → Prop} : Maintains P (draft : DraftM δ δ) :=
  fun _ hs => hs

theorem reads_draft : Reads (draft : DraftM δ δ) := fun _ _ hs => hs

theorem reads_ask : Reads (ask question) := fun _ => maintains_ask

theorem reads_onPool {x : PoolM α} : Reads (onPool x : DraftM δ α) := by
  intro d s hs
  rw [EStateM.left, onPool]
  cases x s.2 <;> exact hs

/-- The computation cannot fail. -/
def Total (x : DraftM δ α) : Prop := ∀ s fault t, x s ≠ .error fault t

theorem total_pure : Total (pure a : DraftM δ α) := by
  intro s fault t h
  cases h

theorem total_change : Total (change f) := by
  intro s fault t h
  cases h

theorem Total.bind {g : α → DraftM δ β} (hx : Total x) (hg : ∀ a, Total (g a)) :
    Total (x >>= g) := by
  intro s fault t h
  rcases EStateM.bind_eq_error.mp h with h | ⟨a, mid, -, h⟩
  · exact hx s fault t h
  · exact hg a mid fault t h

/-- If the computation fails, the draft is as it was. -/
def Atomic (x : DraftM δ α) : Prop := ∀ ⦃s fault t⦄, x s = .error fault t → t.1 = s.1

theorem atomic_throw : Atomic (throw fault : DraftM δ α) := by
  intro s fault t h
  cases h
  rfl

theorem Reads.atomic (hx : Reads x) : Atomic x := fun s _ _ h => (hx s.1).of_error h rfl

theorem Total.atomic (hx : Total x) : Atomic x := fun s fault t h => absurd h (hx s fault t)

theorem Reads.bind_atomic {g : α → DraftM δ β} (hx : Reads x) (hg : ∀ a, Atomic (g a)) :
    Atomic (x >>= g) := by
  intro s fault t h
  rcases EStateM.bind_eq_error.mp h with h | ⟨a, mid, ha, h⟩
  · exact hx.atomic h
  · exact (hg a h).trans ((hx s.1).of_ok ha rfl)

/-- Behind the last reason to fail the draft may be changed. -/
theorem Atomic.bind_total {g : α → DraftM δ β} (hx : Atomic x) (hg : ∀ a, Total (g a)) :
    Atomic (x >>= g) := by
  intro s fault t h
  rcases EStateM.bind_eq_error.mp h with h | ⟨a, mid, -, h⟩
  · exact hx h
  · exact absurd h (hg a mid fault t)

theorem Atomic.discard (hx : Atomic x) : Atomic (Functor.discard x) := fun _ _ _ h =>
  hx (EStateM.discard_eq_error.mp h)

end DraftM

open DraftM

namespace MethodM

variable {α : Type} {d e : MethodDraft} {pool : ConstantPool} {s : MethodDraft × ConstantPool}

theorem checkLive_bind_eq_ok {β : Type} {handles : List Handle} {g : Unit → MethodM β} {b : β} :
    (checkLive handles >>= g) (d, pool) = .ok b s ↔
      d.checkLive handles = .ok () ∧ g () (d, pool) = .ok b s := by
  rw [checkLive, ask_bind_eq_ok]
  exact ⟨fun ⟨⟨⟩, h⟩ => h, fun h => ⟨(), h⟩⟩

theorem addHandler_eq_ok {range : GuardedRange} : addHandler range (d, pool) = .ok () s ↔
    d.checkLive [range.first, range.last, range.handler] = .ok () ∧
      ({ d with handlers := d.handlers ++ [range] }, pool) = s := by
  rw [addHandler, checkLive_bind_eq_ok, change_eq_ok]

theorem addLine_eq_ok {h : Handle} {line : UInt16} : addLine h line (d, pool) = .ok () s ↔
    d.checkLive [h] = .ok () ∧ ({ d with lines := d.lines.push (h, line) }, pool) = s := by
  rw [addLine, checkLive_bind_eq_ok, change_eq_ok]

theorem addScope_eq_ok {name descriptor : String} {slot : UInt16} {first last : Handle} :
    addScope name descriptor slot first last (d, pool) = .ok () s ↔
    d.checkLive [first, last] = .ok () ∧ ∃ n mid, PoolM.addText name pool = .ok n mid ∧
      ∃ t pool', PoolM.addText descriptor mid = .ok t pool' ∧
        ({ d with scopes := d.scopes ++ [⟨first, last, n, t, slot⟩] }, pool') = s := by
  rw [addScope, checkLive_bind_eq_ok]
  simp only [onPool_bind_eq_ok, change_eq_ok]

theorem addException_eq_ok {type : String} : addException type (d, pool) = .ok () s ↔
    ∃ i pool', PoolM.addTypeName type pool = .ok i pool' ∧
      (if d.exceptions.contains i then d else { d with exceptions := d.exceptions ++ [i] },
        pool') = s := by
  rw [addException, onPool_bind_eq_ok]
  simp only [change_eq_ok]

theorem addParameterAnnotation_eq_ok {parameter : Nat} {u : AnnotationUse}
    (h : addParameterAnnotation parameter u (d, pool) = .ok () s) :
    ∃ parameterAnnotations, ({ d with parameterAnnotations }, pool) = s := by
  rw [ addParameterAnnotation, draft_bind] at h
  dsimp only at h
  split at h
  · cases h
  · rw [change_bind] at h
    exact ⟨_, change_eq_ok.mp h⟩

theorem addAttribute_eq_ok [Payload α] {payload : α} :
    addAttribute payload (d, pool) = .ok () s ↔
    ∃ a pool', PoolM.addAttribute payload pool = .ok a pool' ∧
      ({ d with attributes := d.attributes ++ [a] }, pool') = s := by
  rw [addAttribute, onPool_bind_eq_ok]
  simp only [change_eq_ok]

theorem onInstructions_eq_ok {x : InstructionSeq → Except Fault (α × InstructionSeq)} {a : α} :
    onInstructions x (d, pool) = .ok a s ↔
    ∃ instructions, x d.instructions = .ok (a, instructions) ∧
      ({ d with instructions }, pool) = s := by
  rw [onInstructions, ask_bind_eq_ok]
  constructor
  · rintro ⟨⟨_, instructions⟩, hx, h⟩
    obtain ⟨rfl, rfl⟩ := EStateM.pure_eq_ok.mp h
    exact ⟨instructions, hx, rfl⟩
  · rintro ⟨instructions, hx, rfl⟩
    exact ⟨(a, instructions), hx, rfl⟩

theorem onInstructions_eq_error {x : InstructionSeq → Except Fault (α × InstructionSeq)}
    {fault : Fault} (h : x d.instructions = .error fault) :
    onInstructions x (d, pool) = .error fault (d, pool) :=
  EStateM.bind_of_error (ask_eq_error.mpr ⟨h, rfl⟩)

/-! ### Refusals -/

theorem reads_checkLive (handles : List Handle) : Reads (checkLive handles) := reads_ask

theorem atomic_addHandler (range : GuardedRange) : Atomic (addHandler range) :=
  (reads_checkLive _).bind_atomic fun _ => total_change.atomic

theorem atomic_addLine (h : Handle) (line : UInt16) : Atomic (addLine h line) :=
  (reads_checkLive _).bind_atomic fun _ => total_change.atomic

theorem atomic_addScope (name descriptor : String) (slot : UInt16) (first last : Handle) :
    Atomic (addScope name descriptor slot first last) :=
  (reads_checkLive _).bind_atomic fun _ => reads_onPool.bind_atomic fun _ =>
    reads_onPool.bind_atomic fun _ => total_change.atomic

theorem atomic_addException (type : String) : Atomic (addException type) :=
  reads_onPool.bind_atomic fun _ => total_change.atomic

theorem atomic_addParameterAnnotation (parameter : Nat) (u : AnnotationUse) :
    Atomic ( addParameterAnnotation parameter u) := by
  refine reads_draft.bind_atomic fun d => ?_
  dsimp only
  split
  · exact atomic_throw
  · exact (total_change.bind fun _ => total_change).atomic

theorem atomic_addAttribute [Payload α] (payload : α) : Atomic (addAttribute payload) :=
  reads_onPool.bind_atomic fun _ => total_change.atomic

theorem atomic_onInstructions (x : InstructionSeq → Except Fault (α × InstructionSeq)) :
    Atomic (onInstructions x) :=
  reads_ask.bind_atomic fun _ => (total_change.bind fun _ => total_pure).atomic

/-- All that can be said against a removal is said before the first table is touched. -/
theorem atomic_removeInstruction (h : Handle) : Atomic (removeInstruction h) := by
  refine reads_draft.bind_atomic fun d => ?_
  dsimp only
  split
  · exact atomic_throw
  · refine (atomic_onInstructions _).bind_total fun removed => ?_
    exact total_change.bind fun _ => total_change.bind fun _ => total_change.bind fun _ =>
      total_change.bind fun _ => total_pure

/-! ### The pool -/

section

variable {P : ConstantPool → Prop}

theorem maintains_checkLive {Q : MethodDraft × ConstantPool → Prop} (handles : List Handle) :
    Maintains Q (checkLive handles) := maintains_ask

theorem maintains_addHandler (range : GuardedRange) :
    Maintains (fun s => P s.2) (addHandler range) :=
  (maintains_checkLive _).bind fun _ => maintains_change

theorem maintains_addLine (h : Handle) (line : UInt16) :
    Maintains (fun s => P s.2) (addLine h line) :=
  (maintains_checkLive _).bind fun _ => maintains_change

theorem maintains_addParameterAnnotation (parameter : Nat) (u : AnnotationUse) :
    Maintains (fun s => P s.2) ( addParameterAnnotation parameter u) := by
  refine maintains_draft.bind fun d => ?_
  dsimp only
  split
  · exact maintains_throw _
  · exact maintains_change.bind fun _ => maintains_change

theorem maintains_removeInstruction (h : Handle) :
    Maintains (fun s => P s.2) (removeInstruction h) := by
  refine maintains_draft.bind fun d => ?_
  dsimp only
  split
  · exact maintains_throw _
  · refine Maintains.bind ?_ fun removed => ?_
    · exact maintains_ask.bind fun _ => maintains_change.bind fun _ => maintains_pure _
    · exact maintains_change.bind fun _ => maintains_change.bind fun _ =>
        maintains_change.bind fun _ => maintains_change.bind fun _ => maintains_pure _

variable (hadd : ∀ c, Maintains P (PoolM.add c))
include hadd

theorem maintains_addScope (name descriptor : String) (slot : UInt16) (first last : Handle) :
    Maintains (fun s => P s.2) (addScope name descriptor slot first last) :=
  (maintains_checkLive _).bind fun _ => (maintains_onPool (hadd _)).bind fun _ =>
    (maintains_onPool (hadd _)).bind fun _ => maintains_change

theorem maintains_addException (type : String) :
    Maintains (fun s => P s.2) (addException type) :=
  (maintains_onPool (PoolM.maintains_addTypeName hadd type)).bind fun _ => maintains_change

theorem maintains_addAttribute [Payload α] (payload : α) :
    Maintains (fun s => P s.2) (addAttribute payload) :=
  (maintains_onPool (PoolM.maintains_addAttribute hadd payload)).bind fun _ => maintains_change

end

end MethodM

namespace FieldM

variable {α : Type} {d : FieldDraft} {pool : ConstantPool} {s : FieldDraft × ConstantPool}
  {v : ConstantIndex}

theorem setInitialValue_eq_ok : setInitialValue v (d, pool) = .ok () s ↔
    (∃ c, pool.get v = .ok c ∧ d.type.admits c) ∧
      ({ d with initialValue := some v }, pool) = s := by
  rw [setInitialValue, ask_bind_eq_ok]
  constructor
  · rintro ⟨c, hc, h⟩
    rw [draft_bind] at h
    split at h
    · exact ⟨⟨c, hc, by assumption⟩, change_eq_ok.mp h⟩
    · cases h
  · rintro ⟨⟨c, hc, ha⟩, rfl⟩
    refine ⟨c, hc, ?_⟩
    rw [draft_bind, if_pos ha]
    rfl

theorem addAttribute_eq_ok [Payload α] {payload : α} :
    addAttribute payload (d, pool) = .ok () s ↔
    ∃ a pool', PoolM.addAttribute payload pool = .ok a pool' ∧
      ({ d with attributes := d.attributes ++ [a] }, pool') = s := by
  rw [addAttribute, onPool_bind_eq_ok]
  simp only [change_eq_ok]

theorem atomic_setInitialValue (value : ConstantIndex) : Atomic (setInitialValue value) := by
  refine reads_ask.bind_atomic fun c => reads_draft.bind_atomic fun d => ?_
  split
  · exact total_change.atomic
  · exact atomic_throw

theorem atomic_addAttribute [Payload α] (payload : α) : Atomic (addAttribute payload) :=
  reads_onPool.bind_atomic fun _ => total_change.atomic

/-- Only the draft can change. -/
theorem maintains_setInitialValue {P : ConstantPool → Prop} (value : ConstantIndex) :
    Maintains (fun s => P s.2) (setInitialValue value) := by
  refine maintains_ask.bind fun c => maintains_draft.bind fun d => ?_
  split
  · exact maintains_change
  · exact maintains_throw _

end FieldM

end Classfile
