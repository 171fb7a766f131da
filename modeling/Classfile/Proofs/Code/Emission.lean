import Classfile.Code.Emission
import Classfile.Proofs.Code.Starts

/-!
Code that is written into a buffer. An instruction only puts bytes behind what is there, and if all
of it is written, as many as the layout counts for it. So every instruction of a sequence begins
where the layout says.
-/
namespace Classfile

variable {τ α : Type} {code code' piece : List UInt8} {result more : Except Fault (List UInt8)}
  {x y : EmitM Unit}

namespace EmitM

/-- The computation puts the piece behind what is there. If there is no piece, it stops with the
fault, and behind what was there is at most a part of one. -/
structure Appends (x : EmitM Unit) (result : Except Fault (List UInt8)) : Prop where
  puts : ∀ piece, result = .ok piece → ∀ code, x code = .ok () (code ++ piece)
  stops : ∀ fault, result = .error fault → ∀ code, ∃ part, x code = .error fault (code ++ part)

theorem Appends.of_ok (hx : Appends x result) (h : x code = .ok () code') :
    ∃ piece, result = .ok piece ∧ code' = code ++ piece := by
  cases hr : result with
  | ok piece =>
    cases (hx.puts piece hr code).symm.trans h
    exact ⟨piece, rfl, rfl⟩
  | error fault =>
    obtain ⟨part, hp⟩ := hx.stops fault hr code
    cases hp.symm.trans h

theorem Appends.of_error {fault : Fault} (hx : Appends x result)
    (h : x code = .error fault code') : result = .error fault ∧ ∃ part, code' = code ++ part := by
  cases hr : result with
  | ok piece => cases (hx.puts piece hr code).symm.trans h
  | error fault' =>
    obtain ⟨part, hp⟩ := hx.stops fault' hr code
    cases hp.symm.trans h
    exact ⟨rfl, part, rfl⟩

theorem appends_put (piece : List UInt8) : Appends (put piece) (.ok piece) where
  puts piece h code := by
    cases h
    rfl
  stops fault h := by cases h

theorem appends_putChecked (result : Except Fault (List UInt8)) :
    Appends (putChecked result) result where
  puts piece h code := by
    subst h
    rfl
  stops fault h code := by
    subst h
    exact ⟨[], by rw [List.append_nil]; rfl⟩

theorem appends_throw (fault : Fault) : Appends (throw fault) (.error fault) where
  puts piece h := by cases h
  stops fault h code := by
    cases h
    exact ⟨[], by rw [List.append_nil]; rfl⟩

/-- A piece and the next one behind it, if both can be made. -/
def joined (result more : Except Fault (List UInt8)) : Except Fault (List UInt8) := do
  return (← result) ++ (← more)

theorem Appends.bind (hx : Appends x result) (hy : Appends y more) :
    Appends (x >>= fun _ => y) (joined result more) where
  puts piece h code := by
    obtain ⟨front, hfront, h⟩ := Except.bind_eq_ok.mp h
    obtain ⟨back, hback, h⟩ := Except.bind_eq_ok.mp h
    cases h
    rw [← List.append_assoc]
    exact EStateM.bind_eq_ok.mpr ⟨(), _, hx.puts front hfront code, hy.puts back hback _⟩
  stops fault h code := by
    rcases Except.bind_eq_error.mp h with h | ⟨front, hfront, h⟩
    · obtain ⟨part, hp⟩ := hx.stops fault h code
      exact ⟨part, EStateM.bind_eq_error.mpr (.inl hp)⟩
    · rcases Except.bind_eq_error.mp h with h | ⟨back, -, h⟩
      · obtain ⟨part, hp⟩ := hy.stops fault h (code ++ front)
        refine ⟨front ++ part, EStateM.bind_eq_error.mpr (.inr ⟨(), _, hx.puts front hfront code, ?_⟩)⟩
        rw [hp, List.append_assoc]
      · cases h

theorem appends_forM {put : α → EmitM Unit} {make : α → Except Fault (List UInt8)}
    (h : ∀ a, Appends (put a) (make a)) (xs : List α) :
    Appends (xs.forM put) (do return (← xs.mapM make).flatten) := by
  induction xs with
  | nil =>
    refine ⟨fun piece hp code => ?_, fun fault hp => by cases hp⟩
    cases hp
    exact EStateM.pure_eq_ok.mpr ⟨rfl, (List.append_nil _).symm⟩
  | cons a xs ih =>
    have hmake : (do return (← (a :: xs).mapM make).flatten) =
        joined (make a) (do return (← xs.mapM make).flatten) := by
      rw [List.mapM_cons]
      cases make a with
      | error fault => rfl
      | ok piece => cases xs.mapM make <;> rfl
    rw [hmake]
    exact (h a).bind ih

end EmitM

namespace Instruction

open EmitM

variable {i : Instruction τ} {offset : Nat} {widened : Bool} {displacement : τ → Except Fault Int}

theorem appends_emitVariable (short normal : UInt8) (type : VariableType) (slot : UInt16) :
    Appends (emitVariable short normal type slot)
      (.ok (variableBytes short normal type slot)) := by
  rw [emitVariable, variableBytes]
  split
  · exact appends_put _
  · split
    · exact (appends_put _).bind (appends_put _)
    · exact (appends_put _).bind ((appends_put _).bind (appends_put _))

/-- Whether the highest case has room is only asked after the default target was written. -/
theorem appends_tableSwitch (default : τ) (low : Int32) (cases : List τ) :
    Appends ((tableSwitch default low cases).emit offset widened displacement)
      ((tableSwitch default low cases).bytes offset widened displacement) := by
  simp only [emit, bytes]
  generalize low.toInt + cases.length - 1 = high
  split
  · exact appends_throw _
  · have hwide := fun t => appends_putChecked (wideJumpBytes offset displacement t)
    have hcases : Appends
        (if high > 2147483647 then throw (.malformedCode offset (.highCaseOverflow high))
        else do
          put (Writer.i32 (Int32.ofInt high))
          cases.forM fun t => putChecked (wideJumpBytes offset displacement t))
        (if high > 2147483647 then .error (.malformedCode offset (.highCaseOverflow high))
        else joined (.ok (Writer.i32 (Int32.ofInt high)))
          (do return (← cases.mapM (wideJumpBytes offset displacement)).flatten)) := by
      split
      · exact appends_throw _
      · exact (appends_put _).bind (appends_forM hwide cases)
    convert (appends_put _).bind ((appends_put _).bind ((hwide default).bind
      ((appends_put _).bind hcases))) using 1
    cases wideJumpBytes offset displacement default with
    | error fault => rfl
    | ok first =>
      split
      · rfl
      · cases cases.mapM (wideJumpBytes offset displacement) with
        | error fault => rfl
        | ok pieces => simp [joined]

theorem appends_lookupSwitch (default : τ) (cases : List (Int32 × τ)) :
    Appends ((lookupSwitch default cases).emit offset widened displacement)
      ((lookupSwitch default cases).bytes offset widened displacement) := by
  simp only [emit, bytes]
  cases repeatedKey? (sortCases cases) with
  | some key => exact appends_throw _
  | none =>
    have hwide := fun t => appends_putChecked (wideJumpBytes offset displacement t)
    have hpair : ∀ c : Int32 × τ, Appends
        (do put (Writer.i32 c.1); putChecked (wideJumpBytes offset displacement c.2))
        (do return Writer.i32 c.1 ++ (← wideJumpBytes offset displacement c.2)) :=
      fun c => (appends_put _).bind (hwide c.2)
    convert (appends_put _).bind ((appends_put _).bind ((hwide default).bind
      ((appends_put _).bind (appends_forM hpair (sortCases cases))))) using 1
    cases wideJumpBytes offset displacement default with
    | error fault => rfl
    | ok first =>
      rw [Except.ok_bind]
      cases (sortCases cases).mapM fun c => do
        return Writer.i32 c.1 ++ (← wideJumpBytes offset displacement c.2) with
      | error fault => rfl
      | ok pairs => simp [joined]

theorem appends_emit (i : Instruction τ) : Appends (i.emit offset widened displacement)
    (i.bytes offset widened displacement) := by
  cases i with
  | simple op => exact appends_put _
  | constant index =>
    simp only [emit, bytes]
    split
    · exact (appends_put _).bind (appends_put _)
    · exact (appends_put _).bind (appends_put _)
  | load type slot => exact appends_emitVariable _ _ type slot
  | store type slot => exact appends_emitVariable _ _ type slot
  | increment slot amount =>
    simp only [emit, bytes]
    split
    · exact (appends_put _).bind ((appends_put _).bind (appends_put _))
    · exact (appends_put _).bind ((appends_put _).bind ((appends_put _).bind (appends_put _)))
  | ret slot =>
    simp only [emit, bytes]
    split
    · exact (appends_put _).bind (appends_put _)
    · exact (appends_put _).bind ((appends_put _).bind (appends_put _))
  | branch condition target => exact (appends_put _).bind (appends_putChecked _)
  | jump kind target =>
    simp only [emit, bytes]
    split
    · exact (appends_put _).bind (appends_putChecked _)
    · exact (appends_put _).bind (appends_putChecked _)
  | wideJump kind target => exact (appends_put _).bind (appends_putChecked _)
  | tableSwitch default low cases => exact appends_tableSwitch default low cases
  | lookupSwitch default cases => exact appends_lookupSwitch default cases
  | invokeInterface index count =>
    exact (appends_put _).bind ((appends_put _).bind ((appends_put _).bind (appends_put _)))
  | invokeDynamic index | multiNewArray index dimensions =>
    exact (appends_put _).bind ((appends_put _).bind (appends_put _))
  | _ => exact (appends_put _).bind (appends_put _)

/-- An instruction that is written goes behind what is there, which stays, and takes as many bytes
as are counted for it, and two more if it is widened. If it cannot be written, what was there stays
as well. -/
theorem emit_measured (hw : widened → i.isJump) :
    (∀ code code', i.emit offset widened displacement code = .ok () code' →
      ∃ piece, i.bytes offset widened displacement = .ok piece ∧ code' = code ++ piece ∧
        piece.length = i.lengthAt offset + if widened then 2 else 0) ∧
    ∀ code fault code', i.emit offset widened displacement code = .error fault code' →
      i.bytes offset widened displacement = .error fault ∧ ∃ part, code' = code ++ part := by
  constructor
  · intro code code' h
    obtain ⟨piece, hb, rfl⟩ := (appends_emit i).of_ok h
    exact ⟨piece, hb, rfl, length_bytes hw hb⟩
  · intro code fault code' h
    exact (appends_emit i).of_error h

/-- A table switch behind one byte, which takes two bytes of padding, and a widened jump behind the
switch. -/
theorem emit_measured_padded : ∃ switched jumped,
    (tableSwitch 40 5 [20, 24] : Instruction Int).emit 1 false (fun t => .ok (t - 1)) [0] =
      .ok () switched ∧
    (jump .goto 0 : Instruction Int).emit 24 true (fun t => .ok (t - 24)) switched = .ok () jumped ∧
    switched.length = 24 ∧ jumped.length = 29 := by
  obtain ⟨switched, hs⟩ : ∃ switched, (tableSwitch 40 5 [20, 24] : Instruction Int).emit 1 false
    (fun t => .ok (t - 1)) [0] = .ok () switched := ⟨_, rfl⟩
  obtain ⟨jumped, hj⟩ : ∃ jumped, (jump .goto 0 : Instruction Int).emit 24 true
    (fun t => .ok (t - 24)) switched = .ok () jumped := ⟨_, rfl⟩
  obtain ⟨piece, -, rfl, hl⟩ := (emit_measured fun h : false = true => nomatch h).1 _ _ hs
  obtain ⟨more, -, rfl, hl'⟩ := (emit_measured fun _ : true = true => rfl).1 _ _ hj
  refine ⟨_, _, hs, hj, ?_, ?_⟩
  · rw [List.length_append, hl]
    rfl
  · rw [List.length_append, hl', List.length_append, hl]
    rfl

end Instruction

namespace Layout

variable {l : Layout} {s : InstructionSeq} {wide : Handle → Bool} {offset : Nat}
  {items : List (Handle × Instruction Handle)}

theorem length_emitRow {item : Handle × Instruction Handle} (hw : wide item.1 → item.2.isJump)
    (h : l.emitRow ((offset, placing wide offset item), item.2) code = .ok () code') :
    code'.length = code.length + (placing wide offset item).width := by
  obtain ⟨piece, hb, rfl⟩ := (Instruction.appends_emit item.2).of_ok h
  rw [List.length_append, Instruction.length_bytes hw hb]
  rfl

/-- Every instruction is written at the offset where the layout has it, behind the ones before. -/
theorem emitRow_of_rows {before after : List ((Nat × Placed) × Instruction Handle)}
    {row : (Nat × Placed) × Instruction Handle}
    (hw : ∀ item ∈ items, wide item.1 → item.2.isJump) (hl : code.length = offset)
    (hr : rows wide offset items = before ++ row :: after)
    (h : before.forM l.emitRow code = .ok () code') : code'.length = row.1.1 := by
  induction items generalizing offset code before with
  | nil => cases before <;> cases hr
  | cons item items ih =>
    cases before with
    | nil =>
      cases hr
      obtain ⟨-, rfl⟩ := EStateM.pure_eq_ok.mp h
      exact hl
    | cons first before =>
      rw [rows, List.cons_append, List.cons.injEq] at hr
      obtain ⟨rfl, hr⟩ := hr
      obtain ⟨_, mid, hfirst, h⟩ := EStateM.bind_eq_ok.mp h
      refine ih (fun x hx => hw x (List.mem_cons_of_mem _ hx)) ?_ hr h
      rw [length_emitRow (hw item List.mem_cons_self) hfirst, hl]

end Layout

namespace InstructionSeq

open EmitM

variable {s : InstructionSeq} {l : Layout}

theorem appends_emitIn (s : InstructionSeq) (l : Layout) :
    Appends (s.emitIn l) (s.encodeIn l) := by
  unfold emitIn encodeIn
  split
  · exact appends_throw _
  · exact appends_forM (fun row : (Nat × Placed) × Instruction Handle =>
      Instruction.appends_emit row.2) _

/-- In its own layout a sequence is written as it is encoded, and every instruction begins at the
offset at which the layout has it. -/
theorem emitIn_layout (hs : s.Linked) :
    (∀ code, s.emitIn s.layout [] = .ok () code ↔ s.encode = .ok code) ∧
    ∀ before row after code, s.layout.zip s = before ++ row :: after →
      before.forM s.layout.emitRow [] = .ok () code → code.length = row.1.1 := by
  constructor
  · intro code
    constructor
    · intro h
      obtain ⟨bytes, hb, rfl⟩ := (appends_emitIn s s.layout).of_ok h
      exact hb
    · intro h
      exact (appends_emitIn s s.layout).puts code h []
  · intro before row after code hz h
    obtain ⟨wide, hl, hj⟩ := Layout.exists_widening s
    rw [hl] at hz h
    rw [Layout.widening_zip] at hz
    exact Layout.emitRow_of_rows (isJump_of_widened hs hj) List.length_nil hz h

end InstructionSeq

end Classfile
