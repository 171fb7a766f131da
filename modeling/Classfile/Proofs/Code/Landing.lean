import Classfile.Proofs.Arena.Patching
import Classfile.Proofs.Code.StoredJumps

/-!
What is known of code that was read. Every jump goes to the instruction that starts where its bytes
say, and every constant is of a kind that its opcode can use. Code of which all instructions can be
read is refused only for a jump to a place where no instruction starts, and then for the first one.
-/
namespace Classfile

open InstructionSeq

variable {pool : ConstantPool} {code : List UInt8} {d : DecodedCode}
  {items : List (Nat × Instruction Int)} {start : Nat} {target : Int}

/-- The kinds of the constants that can be the operand of an opcode. -/
def Opcode.constantKinds : Opcode → List String
  | field _ => ["Fieldref"]
  | invoke _ | invokeInterface => ["Methodref", "InterfaceMethodref"]
  | invokeDynamic => ["InvokeDynamic"]
  | typeOp _ | multiNewArray => ["Class"]
  | wideConstant => ["Long", "Double", "Dynamic"]
  | constant => ["Integer", "Float", "String", "Class", "MethodHandle", "MethodType", "Dynamic"]
  | _ => []

namespace Instruction

variable {τ : Type} {i : Instruction τ} {index : ConstantIndex} {role : Role} {c : Constant}

theorem exists_role (h : i.constantIndex? = some index) :
    ∃ role, i.operand? = some (index, role) := by
  cases i <;> cases h <;> exact ⟨_, rfl⟩

theorem kind_mem (ho : i.operand? = some (index, role)) (hc : role.accepts c) :
    c.kind ∈ i.opcode.constantKinds := by
  cases i with
  | constant | wideConstant | field | invoke | invokeInterface | invokeDynamic | typeOp
  | multiNewArray =>
    cases ho
    cases c with
    | methodRef ofInterface =>
      cases ofInterface <;> simp_all [Role.accepts, Constant.kind, opcode, Opcode.constantKinds]
    | _ => simp_all [Role.accepts, Constant.kind, opcode, Opcode.constantKinds]
  | _ => cases ho

/-- The constant that the instruction uses is there and has the right kind. -/
theorem Readable.kind (hi : i.Readable pool) (h : i.constantIndex? = some index) :
    ∃ c, pool.get? index = some c ∧ c.kind ∈ i.opcode.constantKinds := by
  obtain ⟨role, ho⟩ := exists_role h
  obtain ⟨-, c, hc, ha⟩ := ConstantPool.checked_eq_ok.mp (hi.wellTyped _ ho)
  exact ⟨c, hc, kind_mem ho ha⟩

end Instruction

/-- An instruction starts at the place. -/
def Lands (starts : List Nat) (place : Int) : Prop := ∃ start ∈ starts, (start : Int) = place

instance {starts : List Nat} {place : Int} : Decidable (Lands starts place) :=
  inferInstanceAs (Decidable (∃ start ∈ starts, (start : Int) = place))

/-- The first place where the instruction at an offset jumps to and where no instruction starts. -/
def strayJump? (code : List UInt8) (starts : List Nat) (start : Nat) : Option Int :=
  (storedJumps start (code.drop start)).find? fun place => ¬ Lands starts place

theorem mem_startsOf {offset : Nat} {h : Handle} (hm : (offset, h) ∈ (startsOf items).toList) :
    ∃ (n : Nat) (i : Instruction Int), items[n]? = some (offset, i) ∧
      (startsOf items)[n]? = some (offset, h) := by
  obtain ⟨n, hn⟩ := List.getElem?_of_mem hm
  rw [Array.getElem?_toList] at hn
  obtain ⟨⟨i, hi⟩, -⟩ := startsOf_getElem?.mp hn
  exact ⟨n, i, hi, hn⟩

theorem lands_of_resolveTarget {h : Handle}
    (ht : resolveTarget (startsOf items) start target = .ok h) :
    Lands (items.map (·.1)) target := by
  obtain ⟨hm, hpos⟩ := mem_of_resolveTarget ht
  obtain ⟨n, i, hi, -⟩ := mem_startsOf hm
  exact ⟨_, List.mem_map_of_mem (List.mem_of_getElem? hi), Int.toNat_of_nonneg hpos⟩

theorem resolveTarget_of_lands (hr : (startsOf items).toList.Pairwise fun x y => x.1 < y.1)
    (hl : Lands (items.map (·.1)) target) :
    ∃ h, resolveTarget (startsOf items) start target = .ok h := by
  obtain ⟨offset, ho, rfl⟩ := hl
  obtain ⟨item, hi, rfl⟩ := List.mem_map.mp ho
  obtain ⟨n, hn⟩ := List.getElem?_of_mem hi
  have hs : (startsOf items)[n]? = some (item.1, handleOf n) :=
    startsOf_getElem?.mpr ⟨⟨_, hn⟩, rfl⟩
  rw [← Array.getElem?_toList] at hs
  refine ⟨handleOf n, ?_⟩
  rw [resolveTarget, if_neg (by omega), Int.toNat_natCast,
    ArenaM.handleAtOffset?_of_mem hr (List.mem_of_getElem? hs)]

theorem resolveTarget_of_not_lands (hl : ¬ Lands (items.map (·.1)) target) :
    resolveTarget (startsOf items) start target =
      .error (.malformedCode start (.offInstruction target)) := by
  cases ht : resolveTarget (startsOf items) start target with
  | ok h => exact absurd (lands_of_resolveTarget ht) hl
  | error fault =>
    unfold resolveTarget at ht
    split at ht
    · cases ht
    · exact ht.symm

variable {item : Nat × Instruction Int}

theorem resolve_of_stray (hread : Instruction.readAll pool code = .ok items) (hi : item ∈ items)
    (hs : strayJump? code (items.map (·.1)) item.1 = some target) :
    item.2.resolve (resolveTarget (startsOf items) item.1) =
      .error (.malformedCode item.1 (.offInstruction target)) := by
  rw [strayJump?, ← Instruction.targets_readAll hread item hi,
    List.find?_eq_some_iff_append] at hs
  obtain ⟨hstray, before, after, hsplit, hbefore⟩ := hs
  rw [Instruction.resolve_eq_error .unresolved, Except.mapM_eq_error]
  refine ⟨before, target, after, hsplit, fun t ht => ?_, ?_⟩
  · exact resolveTarget_of_lands (rising_startsOf hread) (by simpa using hbefore t ht)
  · exact resolveTarget_of_not_lands (by simpa using hstray)

/-- The targets of an instruction are found unless one of them is astray. -/
theorem exists_resolve_iff (hread : Instruction.readAll pool code = .ok items)
    (hi : item ∈ items) : (∃ j, item.2.resolve (resolveTarget (startsOf items) item.1) = .ok j) ↔
      strayJump? code (items.map (·.1)) item.1 = none := by
  constructor
  · rintro ⟨j, hj⟩
    cases hs : strayJump? code (items.map (·.1)) item.1 with
    | none => rfl
    | some target =>
      rw [resolve_of_stray hread hi hs] at hj
      cases hj
  · intro hs
    rw [strayJump?, ← Instruction.targets_readAll hread item hi, List.find?_eq_none] at hs
    have hfound : ∀ t ∈ item.2.targets,
        ∃ h, resolveTarget (startsOf items) item.1 t = .ok h := by
      intro t ht
      exact resolveTarget_of_lands (rising_startsOf hread) (by simpa using hs t ht)
    obtain ⟨others, ho⟩ := Except.exists_mapM hfound
    rw [Except.exists_eq_ok]
    intro fault hf
    rw [Instruction.resolve_eq_error .unresolved, ho] at hf
    cases hf

/-- Code of which all instructions can be read is accepted unless a jump is astray. -/
theorem exists_decodeCode_iff (hread : Instruction.readAll pool code = .ok items) :
    (∃ d, decodeCode pool code = .ok d) ↔
      ∀ item ∈ items, strayJump? code (items.map (·.1)) item.1 = none := by
  constructor
  · rintro ⟨d, hd⟩ item hi
    obtain ⟨items', instructions, hread', hr, -⟩ := decodeCode_eq_ok.mp hd
    rw [hread] at hread'
    cases hread'
    obtain ⟨j, hj⟩ := Except.exists_of_mapM hr hi
    exact (exists_resolve_iff hread hi).mp ⟨j, hj⟩
  · intro h
    obtain ⟨instructions, hr⟩ := Except.exists_mapM fun item hi =>
      (exists_resolve_iff hread hi).mpr (h item hi)
    exact ⟨_, decodeCode_eq_ok.mpr ⟨items, instructions, hread, hr, rfl⟩⟩

theorem decodeCode_of_stray (hread : Instruction.readAll pool code = .ok items) (hi : item ∈ items)
    (hb : ∀ earlier ∈ items, earlier.1 < item.1 →
      strayJump? code (items.map (·.1)) earlier.1 = none)
    (hs : strayJump? code (items.map (·.1)) item.1 = some target) :
    decodeCode pool code = .error (.malformedCode item.1 (.offInstruction target)) := by
  obtain ⟨before, after, hsplit⟩ := List.append_of_mem hi
  -- Instructions are read in the order of their offsets.
  have hlt : ∀ earlier ∈ before, earlier.1 < item.1 := by
    intro earlier he
    have hp := Instruction.rising_readAll hread
    rw [hsplit, List.pairwise_append] at hp
    exact hp.2.2 earlier he item List.mem_cons_self
  have hr : items.mapM (fun item => item.2.resolve (resolveTarget (startsOf items) item.1)) =
      .error (.malformedCode item.1 (.offInstruction target)) := by
    refine Except.mapM_eq_error.mpr ⟨before, item, after, hsplit, fun earlier he => ?_, ?_⟩
    · have hm : earlier ∈ items := hsplit ▸ List.mem_append_left _ he
      exact (exists_resolve_iff hread hm).mpr (hb earlier hm (hlt earlier he))
    · exact resolve_of_stray hread hi hs
  exact Except.bind_eq_error.mpr (.inr ⟨items, hread, Except.bind_eq_error.mpr (.inl hr)⟩)

/-- The handle is that of the instruction that starts at a place. -/
def DecodedCode.IsAt (d : DecodedCode) (place : Int) (h : Handle) : Prop :=
  ∃ (n start : Nat) (i : Instruction Handle), (start : Int) = place ∧
    d.offsets[n]? = some (start, h) ∧ d.instructions.toList[n]? = some (h, i)

/-- Every instruction has a start, and its targets are the instructions that start where its bytes
say that it jumps. -/
structure DecodedCode.WellLinked (code : List UInt8) (d : DecodedCode) : Prop where
  starts : d.offsets.toList.map (·.2) = d.instructions.handles
  lands : ∀ (n start : Nat) (h : Handle) (i : Instruction Handle),
    d.offsets[n]? = some (start, h) → d.instructions.toList[n]? = some (h, i) →
      List.Forall₂ d.IsAt (storedJumps start (code.drop start)) i.targets

/-- Every constant that an instruction uses is there and is of a kind that the opcode can use. -/
def DecodedCode.WellTyped (pool : ConstantPool) (d : DecodedCode) : Prop :=
  ∀ item ∈ d.instructions.toList, ∀ index ∈ item.2.constantIndex?,
    ∃ c, pool.get? index = some c ∧ c.kind ∈ item.2.opcode.constantKinds

theorem exists_instruction {n : Nat} {h : Handle} (hd : decodeCode pool code = .ok d)
    (hn : d.offsets[n]? = some (start, h)) : ∃ i, d.instructions.toList[n]? = some (h, i) := by
  have hh : (d.offsets.toList.map (·.2))[n]? = some h := by
    rw [List.getElem?_map, Array.getElem?_toList, hn]
    rfl
  rw [d.offsets_map_snd hd, handles, List.getElem?_map] at hh
  obtain ⟨⟨g, i⟩, hi, rfl⟩ := Option.map_eq_some_iff.mp hh
  exact ⟨i, hi⟩

theorem offsets_map_fst (hd : decodeCode pool code = .ok d) : ∃ items,
    Instruction.readAll pool code = .ok items ∧ d.offsets.toList.map (·.1) = items.map (·.1) := by
  obtain ⟨items, instructions, hread, -, rfl⟩ := decodeCode_eq_ok.mp hd
  refine ⟨items, hread, ?_⟩
  rw [startsOf, List.map_map, ← List.zipIdx_map_fst 0 items, List.map_map]
  simp [Function.comp_def]

theorem wellLinked_decodeCode (hd : decodeCode pool code = .ok d) : d.WellLinked code where
  starts := d.offsets_map_snd hd
  lands := by
    intro n start h i hstart hi
    obtain ⟨items, start', j, hread, hj, hstart', he, hr⟩ := exists_item hd hi
    rw [hstart] at hstart'
    cases hstart'
    have ht := Instruction.mapM_targets_of_resolve .unresolved hr
    rw [Instruction.targets_readAll hread _ (List.mem_of_getElem? hj), Except.mapM_eq_ok, he] at ht
    refine ht.imp fun place target hplace => ?_
    -- The handle was found among the starts, at the position of its instruction.
    obtain ⟨hm, hpos⟩ := mem_of_resolveTarget hplace
    obtain ⟨m, -, -, hm⟩ := mem_startsOf hm
    rw [← he] at hm
    obtain ⟨i', hi'⟩ := exists_instruction hd hm
    exact ⟨m, place.toNat, i', Int.toNat_of_nonneg hpos, hm, hi'⟩

theorem wellTyped_decodeCode (hd : decodeCode pool code = .ok d) : d.WellTyped pool :=
  fun item hm _ hx => (readable_decodeCode hd item hm).kind hx

/-- What was read is well linked and well typed. Code of which all instructions can be read is
refused for the first jump that is astray, at the offset of its instruction, and for nothing else.
Reading it into an arena does the same. -/
theorem decodeCode_lands (pool : ConstantPool) (code : List UInt8) :
    (∀ d, decodeCode pool code = .ok d → d.WellLinked code ∧ d.WellTyped pool ∧ ∃ items,
      Instruction.readAll pool code = .ok items ∧ d.offsets.toList.map (·.1) = items.map (·.1)) ∧
    (∀ items, Instruction.readAll pool code = .ok items →
      ((∃ d, decodeCode pool code = .ok d) ↔
        ∀ item ∈ items, strayJump? code (items.map (·.1)) item.1 = none) ∧
      ∀ item ∈ items, ∀ target, strayJump? code (items.map (·.1)) item.1 = some target →
        (∀ earlier ∈ items, earlier.1 < item.1 →
          strayJump? code (items.map (·.1)) earlier.1 = none) →
        decodeCode pool code = .error (.malformedCode item.1 (.offInstruction target))) ∧
    (code.length < 2 ^ 32 →
      (∀ d, decodeCode pool code = .ok d →
        ∃ a, ArenaM.decode pool code .empty = .ok d.offsets a ∧ a.Shows d.instructions.toList) ∧
      ∀ fault, decodeCode pool code = .error fault →
        ∃ a, ArenaM.decode pool code .empty = .error (.refused fault) a) := by
  refine ⟨fun d hd => ⟨wellLinked_decodeCode hd, wellTyped_decodeCode hd, offsets_map_fst hd⟩,
    fun items hread => ⟨exists_decodeCode_iff hread, fun item hi target hs hb =>
      decodeCode_of_stray hread hi hb hs⟩, fun hc => ?_⟩
  have hlen : ∀ items, Instruction.readAll pool code = .ok items →
      items.length ≤ UInt32.size := by
    intro items hread
    obtain ⟨-, -, hl⟩ := Instruction.readUpTo_readAll hread
    exact Nat.le_of_lt (Nat.lt_of_le_of_lt hl hc)
  have hends := ArenaM.ends_decode hlen
  constructor
  · intro d hd
    rw [hd] at hends
    obtain ⟨offsets, a, ha, rfl, hr⟩ := hends
    exact ⟨a, ha, hr.shows (sound_decodeCode hd hc).linked⟩
  · intro fault hf
    rwa [hf] at hends

/-- The constant seven is loaded, and a switch goes back to this for zero and else to the end. -/
def sevens : List UInt8 := [
  0x12, 0x01, 0xaa, 0x00, 0x00, 0x00, 0x00, 0x12, 0x00, 0x00, 0x00, 0x00, 0x00, 0x00, 0x00, 0x00,
  0xff, 0xff, 0xff, 0xfe, 0xb1]

/-- A jump into its own operand, and a return. -/
def astray : List UInt8 := [0xa7, 0x00, 0x02, 0xb1]

theorem readAll_astray : Instruction.readAll .empty astray =
    .ok [(0, .jump .goto 2), (3, .simple .returnVoid)] := rfl

theorem decodeCode_lands_sevens :
    (∃ d, decodeCode ⟨WidthTable.ofList 1 [.integer 7], ∅⟩ sevens = .ok d ∧
      d.instructions.get? ⟨1, 0⟩ = some (.tableSwitch ⟨2, 0⟩ 0 [⟨0, 0⟩]) ∧ d.WellLinked sevens ∧
        d.WellTyped ⟨WidthTable.ofList 1 [.integer 7], ∅⟩) ∧
    strayJump? astray [0, 3] 0 = some 2 ∧
      decodeCode .empty astray = .error (.malformedCode 0 (.offInstruction 2)) := by
  have hd : decodeCode ⟨WidthTable.ofList 1 [.integer 7], ∅⟩ sevens = .ok
      ⟨ofList [.constant ⟨1⟩, .tableSwitch ⟨2, 0⟩ 0 [⟨0, 0⟩], .simple .returnVoid],
        #[(0, ⟨0, 0⟩), (2, ⟨1, 0⟩), (20, ⟨2, 0⟩)]⟩ := rfl
  have hstray : strayJump? astray [0, 3] 0 = some 2 := by decide +kernel
  obtain ⟨hlinked, htyped, -⟩ := (decodeCode_lands _ _).1 _ hd
  refine ⟨⟨_, hd, by decide +kernel, hlinked, htyped⟩, hstray, ?_⟩
  obtain ⟨-, hreject⟩ := (decodeCode_lands _ _).2.1 _ readAll_astray
  refine hreject (0, .jump .goto 2) List.mem_cons_self 2 hstray fun earlier _ hlt => ?_
  exact absurd hlt (Nat.not_lt_zero _)

end Classfile
