import Classfile.Proofs.Code.RoundTrip
import Classfile.Proofs.Code.Settling

/-!
What can be laid out. Once the code is not too long, every jump, every wide jump and every switch
reaches its targets. What is left to go wrong is a branch that is too far from its target, and a
switch whose cases cannot be stored.
-/
namespace Classfile

namespace Instruction

variable {τ : Type} {i : Instruction τ} {offset : Nat} {widened : Bool} {t target : τ} {d : Int}
  {disp : τ → Except Fault Int} {f : τ → Int}

/-- The distance fits in two bytes. -/
def Near (d : Int) : Prop := -32768 ≤ d ∧ d ≤ 32767

/-- What it takes to store the instruction when the distances of its targets are given. -/
def Writable (f : τ → Int) : Instruction τ → Prop
  | branch _ target => Near (f target)
  | tableSwitch _ low cases => cases ≠ [] ∧ low.toInt + cases.length - 1 ≤ 2147483647
  | lookupSwitch _ cases => (cases.map (·.1)).Nodup
  | _ => True

theorem exists_narrowJump (hd : disp target = .ok d) :
    (∃ bytes, narrowJump offset disp target = .ok bytes) ↔ Near d := by
  simp only [narrowJump_eq_ok, hd, Except.ok.injEq]
  constructor
  · rintro ⟨_, _, rfl, hn, -⟩
    exact hn
  · intro hn
    exact ⟨_, d, rfl, hn, rfl⟩

theorem exists_wideJumpBytes (hd : disp target = .ok d) (hl : -65535 ≤ d) (hu : d ≤ 65535) :
    ∃ bytes, wideJumpBytes offset disp target = .ok bytes :=
  ⟨_, wideJumpBytes_eq_ok.mpr ⟨d, hd, by omega, rfl⟩⟩

/-! ### Keys -/

/-- Among sorted cases equal keys are next to each other: if the second key is another one, the
first does not come back. -/
theorem notMem_of_sorted {a b : Int32 × τ} {rest : List (Int32 × τ)}
    (hs : (a :: b :: rest).Pairwise fun a b => a.1 ≤ b.1) (hne : a.1 ≠ b.1) :
    a.1 ∉ (b :: rest).map (·.1) := by
  obtain ⟨ha, hs⟩ := List.pairwise_cons.mp hs
  obtain ⟨hb, -⟩ := List.pairwise_cons.mp hs
  intro hm
  obtain ⟨c, hc, he⟩ := List.mem_map.mp hm
  -- The key would be between itself and that of `b`.
  have hab := ha b List.mem_cons_self
  have hbc : b.1 ≤ c.1 := by
    rcases List.mem_cons.mp hc with rfl | hc
    · exact Int32.le_refl _
    · exact hb c hc
  rw [he] at hbc
  exact hne (Int32.le_antisymm hab hbc)

theorem repeatedKey?_eq_none {cases : List (Int32 × τ)} (hs : cases.Pairwise fun a b => a.1 ≤ b.1) :
    repeatedKey? cases = none ↔ (cases.map (·.1)).Nodup := by
  induction cases using repeatedKey?.induct with
  | case1 a b rest he => simp [repeatedKey?, he]
  | case2 a b rest hne ih =>
    have hkeys : ((a :: b :: rest).map (·.1)).Nodup ↔
        a.1 ∉ (b :: rest).map (·.1) ∧ ((b :: rest).map (·.1)).Nodup := List.nodup_cons
    rw [repeatedKey?, if_neg hne, ih (List.pairwise_cons.mp hs).2, hkeys]
    exact (and_iff_right (notMem_of_sorted hs hne)).symm
  | case3 cases h =>
    rcases cases with _ | ⟨a, _ | ⟨b, rest⟩⟩
    · simp [repeatedKey?]
    · simp [repeatedKey?]
    · exact absurd rfl (h a b rest)

theorem repeatedKey?_sortCases {cases : List (Int32 × τ)} :
    repeatedKey? (sortCases cases) = none ↔ (cases.map (·.1)).Nodup := by
  rw [repeatedKey?_eq_none (sortCases_pairwise cases)]
  exact ((List.mergeSort_perm cases _).map _).nodup_iff

/-- All distances being small, only branches can be too far from their targets. -/
theorem exists_bytes (hd : ∀ t ∈ i.targets, disp t = .ok (f t) ∧ -65535 ≤ f t ∧ f t ≤ 65535)
    (hj : ∀ kind target, i = jump kind target → widened ∨ Near (f target)) :
    (∃ bytes, i.bytes offset widened disp = .ok bytes) ↔ i.Writable f := by
  have hwide : ∀ t ∈ i.targets, ∃ bytes, wideJumpBytes offset disp t = .ok bytes := by
    intro t ht
    obtain ⟨h, hl, hu⟩ := hd t ht
    exact exists_wideJumpBytes h hl hu
  cases i with
  | branch condition target =>
    rw [Writable, ← exists_narrowJump (hd target List.mem_cons_self).1]
    constructor
    · rintro ⟨bytes, h⟩
      obtain ⟨piece, ht, -⟩ := Except.map_eq_ok.mp h
      exact ⟨piece, ht⟩
    · rintro ⟨piece, ht⟩
      exact ⟨_, Except.map_eq_ok.mpr ⟨piece, ht, rfl⟩⟩
  | jump kind target =>
    refine iff_of_true ?_ trivial
    cases widened with
    | true =>
      obtain ⟨piece, ht⟩ := hwide target List.mem_cons_self
      exact ⟨_, Except.map_eq_ok.mpr ⟨piece, ht, rfl⟩⟩
    | false =>
      have hn : Near (f target) := (hj kind target rfl).resolve_left Bool.false_ne_true
      obtain ⟨piece, ht⟩ := (exists_narrowJump (hd target List.mem_cons_self).1).mpr hn
      exact ⟨_, Except.map_eq_ok.mpr ⟨piece, ht, rfl⟩⟩
  | wideJump kind target =>
    refine iff_of_true ?_ trivial
    obtain ⟨piece, ht⟩ := hwide target List.mem_cons_self
    exact ⟨_, Except.map_eq_ok.mpr ⟨piece, ht, rfl⟩⟩
  | tableSwitch default low cases =>
    simp only [tableSwitch_bytes, Writable]
    constructor
    · rintro ⟨_, hc, hh, -⟩
      exact ⟨hc, hh⟩
    · rintro ⟨hc, hh⟩
      obtain ⟨first, hf⟩ := hwide default List.mem_cons_self
      obtain ⟨pieces, hp⟩ := Except.exists_mapM fun t ht => hwide t (List.mem_cons_of_mem _ ht)
      exact ⟨_, hc, hh, first, pieces, hf, hp, rfl⟩
  | lookupSwitch default cases =>
    simp only [lookupSwitch_bytes, Writable, repeatedKey?_sortCases]
    constructor
    · rintro ⟨_, hk, -⟩
      exact hk
    · intro hk
      obtain ⟨first, hf⟩ := hwide default List.mem_cons_self
      have hpair : ∀ c ∈ sortCases cases, ∃ piece, (do
          return Writer.i32 c.1 ++ (← wideJumpBytes offset disp c.2)) = Except.ok piece := by
        intro c hc
        rw [sortCases, List.mem_mergeSort] at hc
        obtain ⟨piece, ht⟩ := hwide c.2 (List.mem_cons_of_mem _ (List.mem_map_of_mem hc))
        exact ⟨_, Except.map_eq_ok.mpr ⟨piece, ht, rfl⟩⟩
      obtain ⟨pairs, hp⟩ := Except.exists_mapM hpair
      exact ⟨_, hk, first, pairs, hf, hp, rfl⟩
  | constant | increment | ret =>
    refine iff_of_true ?_ trivial
    simp only [bytes]
    split <;> exact ⟨_, rfl⟩
  | _ => exact iff_of_true ⟨_, rfl⟩ trivial

end Instruction

theorem exists_forall₂ {α β : Type} {R : α → β → Prop} {xs : List α} :
    (∃ ys, List.Forall₂ R xs ys) ↔ ∀ x ∈ xs, ∃ y, R x y := by
  induction xs with
  | nil => exact iff_of_true ⟨[], .nil⟩ (by simp)
  | cons x xs ih =>
    rw [List.forall_mem_cons, ← ih]
    constructor
    · rintro ⟨ys, h⟩
      cases h with
      | cons hx h => exact ⟨⟨_, hx⟩, _, h⟩
    · rintro ⟨⟨y, hx⟩, ys, h⟩
      exact ⟨y :: ys, .cons hx h⟩

namespace Layout

variable {s : InstructionSeq} {wide : Std.HashSet Handle} {h : Handle} {i : Instruction Handle}
  {items xs : List (Handle × Instruction Handle)}

theorem zip_widening (hs : s.Linked) : (widening s wide).zip s = s.toList.map (rowOf s wide) := by
  rw [widening_zip]
  exact rows_eq_map hs (List.nil_append s.toList).symm

theorem offsetOf?_of_mem (wide : Std.HashSet Handle) (hs : s.Linked) (hh : h ∈ s.handles) :
    ∃ offset, (widening s wide).offsetOf? h = some offset ∧
      offset ≤ (widening s wide).codeLength := by
  obtain ⟨xs, i, ys, hl⟩ := InstructionSeq.exists_split hh
  refine ⟨_, widening_offsetOf? wide hs hl, ?_⟩
  rw [codeLength, widening_table, WidthTable.ofList_extent, hl, places_append, Width.total_append]
  omega

/-- The jumps that have to be widened are those that are narrow and out of reach. -/
theorem mem_oversized (hs : s.Linked) : h ∈ (widening s wide).oversized s ↔
    ∃ kind target, (h, .jump kind target) ∈ s.toList ∧ h ∉ wide ∧
      ¬ Instruction.Near
        ((widening s wide).destination target - (widening s wide).destination h) := by
  have hfar : ∀ {g kind target} offset, target ∈ s.handles →
      ((widening s wide).isOversized offset (placing wide.contains offset (g, .jump kind target))
        (.jump kind target) ↔
          g ∉ wide ∧ ¬ Instruction.Near ((widening s wide).destination target - offset)) := by
    intro g kind target offset ht
    obtain ⟨there, hthere, -⟩ := offsetOf?_of_mem wide hs ht
    simp only [isOversized, placing, hthere, destination, Option.getD_some, Instruction.Near]
    rw [Bool.and_eq_true, Bool.not_eq_true', Bool.or_eq_true, decide_eq_true_eq, decide_eq_true_eq,
      ← Bool.not_eq_true, Std.HashSet.contains_iff_mem]
    refine and_congr_right fun _ => ?_
    omega
  rw [oversized, zip_widening hs, List.mem_filterMap]
  constructor
  · rintro ⟨row, hrow, hp⟩
    obtain ⟨⟨g, i⟩, hm, rfl⟩ := List.mem_map.mp hrow
    simp only [Option.ite_none_right_eq_some, Option.some.injEq] at hp
    obtain ⟨ho, rfl⟩ := hp
    cases i with
    | jump kind target =>
      exact ⟨kind, target, hm, (hfar _ (hs.targets _ hm target List.mem_cons_self)).mp ho⟩
    | _ => cases ho
  · rintro ⟨kind, target, hm, hn⟩
    refine ⟨_, List.mem_map_of_mem hm, ?_⟩
    exact if_pos ((hfar _ (hs.targets _ hm target List.mem_cons_self)).mpr hn)

theorem near_of_jump {kind : JumpKind} {target : Handle} {there : Nat} (hs : s.Linked)
    (ho : (widening s wide).oversized s = []) (hm : (h, .jump kind target) ∈ s.toList)
    (ht : (widening s wide).offsetOf? target = some there) :
    wide.contains h ∨ Instruction.Near (there - (widening s wide).destination h) := by
  by_contra hn
  rw [not_or, Std.HashSet.contains_iff_mem] at hn
  have hd : (widening s wide).destination target = there := by
    rw [destination, ht, Option.getD_some]
  have hin : h ∈ (widening s wide).oversized s :=
    (mem_oversized hs).mpr ⟨kind, target, hm, hn.1, hd ▸ hn.2⟩
  rw [ho] at hin
  cases hin

/-- In code that is not too long no target is farther away than it is long. -/
theorem distance_of_mem {offset : Nat} {t : Handle} (hs : s.Linked)
    (hc : (widening s wide).codeLength ≤ maxCodeLength)
    (ho : (widening s wide).offsetOf? h = some offset) (hh : h ∈ s.handles) (ht : t ∈ s.handles) :
    ∃ there, (widening s wide).offsetOf? t = some there ∧
      (widening s wide).distance offset t = .ok (there - offset) ∧
        -65535 ≤ (there - offset : Int) ∧ (there - offset : Int) ≤ 65535 := by
  obtain ⟨_, ho', hle⟩ := offsetOf?_of_mem wide hs hh
  cases ho.symm.trans ho'
  obtain ⟨there, hthere, hle'⟩ := offsetOf?_of_mem wide hs ht
  rw [maxCodeLength] at hc
  refine ⟨there, hthere, ?_, ?_, ?_⟩
  · rw [Layout.distance, hthere]
  · omega
  · omega

/-- While the code is not too long, an instruction can be stored if it is writable. -/
theorem exists_writes {item : Handle × Instruction Handle} (hs : s.Linked)
    (ho : (widening s wide).oversized s = [])
    (hc : (widening s wide).codeLength ≤ maxCodeLength) (hm : item ∈ s.toList) :
    (∃ piece, (widening s wide).Writes (rowOf s wide item) piece) ↔
      item.2.Writable fun target =>
        (widening s wide).destination target - (widening s wide).destination item.1 := by
  obtain ⟨h, i⟩ := item
  have hh : h ∈ s.handles := List.mem_map_of_mem hm
  obtain ⟨offset, hoff, -⟩ := offsetOf?_of_mem wide hs hh
  refine Instruction.exists_bytes (fun t ht => ?_) ?_
  · obtain ⟨there, hthere, hdist, hlow, hup⟩ :=
      distance_of_mem hs hc hoff hh (hs.targets _ hm t ht)
    simpa only [rowOf, destination, hoff, hthere, Option.getD_some] using ⟨hdist, hlow, hup⟩
  · rintro kind target rfl
    obtain ⟨there, hthere, -⟩ :=
      offsetOf?_of_mem wide hs (hs.targets _ hm target List.mem_cons_self)
    rw [destination, hthere]
    exact near_of_jump hs ho hm hthere

end Layout

namespace InstructionSeq

open Layout

variable {s : InstructionSeq}

/-- How far it is from one instruction to another in the layout. -/
def distance (s : InstructionSeq) (h target : Handle) : Int :=
  s.layout.destination target - s.layout.destination h

theorem exists_encode (hs : s.Linked) : (∃ bytes, s.encode = .ok bytes) ↔
    s.layout.codeLength ≤ maxCodeLength ∧
      ∀ item ∈ s.toList, item.2.Writable (s.distance item.1) := by
  obtain ⟨wide, hl, -⟩ := exists_widening s
  have hover : (widening s wide).oversized s = [] := hl ▸ oversized_layout s
  have hpieces : (∃ bytes, s.encode = .ok bytes) ↔ (widening s wide).codeLength ≤ maxCodeLength ∧
      ∃ pieces, List.Forall₂ (widening s wide).Writes (s.toList.map (rowOf s wide)) pieces := by
    simp only [encode, hl, encodeIn_eq_ok, zip_widening hs]
    constructor
    · rintro ⟨_, hc, pieces, hp, -⟩
      exact ⟨hc, pieces, hp⟩
    · rintro ⟨hc, pieces, hp⟩
      exact ⟨_, hc, pieces, hp, rfl⟩
  rw [hpieces, hl, exists_forall₂, List.forall_mem_map]
  refine and_congr_right fun hc => forall₂_congr fun item hm => ?_
  rw [exists_writes hs hover hc hm, ← hl]
  rfl

/-- Instructions that go nowhere else can be written when they are not too long. -/
theorem exists_encode_of_targetless (hs : s.Linked) (ht : ∀ item ∈ s.toList, item.2.targets = [])
    (hc : Width.total (places (fun _ => false) 0 s.toList) ≤ maxCodeLength) :
    ∃ bytes, s.encode = .ok bytes := by
  have hjumps : s.items.countP (fun item => item.2.isJump) = 0 := by
    refine Array.countP_eq_zero.mpr fun item hm hj => ?_
    have ht := ht item (Array.mem_toList_iff.mpr hm)
    cases hi : item.2 <;> simp [hi, Instruction.isJump, Instruction.targets] at hj ht
  have hlayout : s.layout = widening s ∅ := by
    rw [layout, hjumps]
    rfl
  rw [exists_encode hs, hlayout, codeLength, widening_table, contains_empty,
    WidthTable.ofList_extent, Nat.zero_add]
  refine ⟨hc, fun item hm => ?_⟩
  have ht := ht item hm
  cases hi : item.2 <;> simp [hi, Instruction.targets, Instruction.Writable] at ht ⊢

end InstructionSeq

end Classfile
