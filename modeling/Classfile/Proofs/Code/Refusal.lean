import Classfile.Proofs.Code.Acceptance

/-!
Why a sequence cannot be written. Code that is too long is refused as a whole. Otherwise writing
ends at the first instruction that cannot be stored, which is a branch too far from its target or a
switch whose cases have no encoding.
-/
namespace Classfile

namespace Instruction

variable {τ : Type} {cases : List (Int32 × τ)} {key : Int32}

/-- The least key that more than one of the cases has. -/
def LeastRepeated (cases : List (Int32 × τ)) (key : Int32) : Prop :=
  1 < (cases.map (·.1)).count key ∧ ∀ k < key, (cases.map (·.1)).count k ≤ 1

theorem LeastRepeated.unique {k : Int32} (h : LeastRepeated cases key)
    (h' : LeastRepeated cases k) : key = k := by
  have hle : ∀ {a b : Int32}, LeastRepeated cases a → LeastRepeated cases b → a ≤ b := by
    intro a b ha hb
    refine Int32.not_lt.mp fun hlt => ?_
    exact absurd hb.1 (Nat.not_lt.mpr (ha.2 b hlt))
  exact Int32.le_antisymm (hle h h') (hle h' h)

/-- Among sorted cases the first key that is followed by itself is the least repeated one. -/
theorem leastRepeated_of_repeatedKey? (hs : cases.Pairwise fun a b => a.1 ≤ b.1)
    (h : repeatedKey? cases = some key) : LeastRepeated cases key := by
  induction cases using repeatedKey?.induct with
  | case1 a b rest he =>
    rw [repeatedKey?, if_pos he] at h
    cases h
    refine ⟨by simp [he], fun k hk => ?_⟩
    have hnot : k ∉ (a :: b :: rest).map (·.1) := by
      intro hm
      obtain ⟨c, hc, rfl⟩ := List.mem_map.mp hm
      rcases List.mem_cons.mp hc with rfl | hc
      · exact Int32.lt_irrefl hk
      · exact Int32.not_lt.mpr ((List.pairwise_cons.mp hs).1 c hc) hk
    rw [List.count_eq_zero.mpr hnot]
    exact Nat.zero_le 1
  | case2 a b rest hne ih =>
    rw [repeatedKey?, if_neg hne] at h
    obtain ⟨hcount, hleast⟩ := ih (List.pairwise_cons.mp hs).2 h
    have hnot := notMem_of_sorted hs hne
    rw [LeastRepeated, List.map_cons]
    refine ⟨Nat.lt_of_lt_of_le hcount List.count_le_count_cons, fun k hk => ?_⟩
    rw [List.count_cons]
    by_cases ha : a.1 = k
    · rw [← ha, List.count_eq_zero.mpr hnot]
      simp
    · simpa [ha] using hleast k hk
  | case3 cases hn =>
    rcases cases with _ | ⟨a, _ | ⟨b, rest⟩⟩
    · cases h
    · cases h
    · exact absurd rfl (hn a b rest)

theorem repeatedKey?_sortCases_eq_some :
    repeatedKey? (sortCases cases) = some key ↔ LeastRepeated cases key := by
  have hperm : LeastRepeated (sortCases cases) = LeastRepeated cases := by
    funext k
    simp only [LeastRepeated, ((List.mergeSort_perm cases _).map _).count_eq, sortCases]
  have hsome : ∀ {k}, repeatedKey? (sortCases cases) = some k → LeastRepeated cases k := by
    intro k hk
    exact hperm ▸ leastRepeated_of_repeatedKey? (sortCases_pairwise cases) hk
  refine ⟨hsome, fun h => ?_⟩
  cases hk : repeatedKey? (sortCases cases) with
  | some k => rw [(hsome hk).unique h]
  | none =>
    have hle := List.nodup_iff_count_le_one.mp (repeatedKey?_sortCases.mp hk) key
    exact absurd h.1 (Nat.not_lt.mpr hle)

theorem narrowJump_of_far {offset : Nat} {disp : τ → Except Fault Int} {target : τ} {d : Int}
    (hd : disp target = .ok d) (hf : ¬ Near d) :
    narrowJump offset disp target = .error (.branchTooFar offset d) := by
  rw [narrowJump, hd, Except.ok_bind]
  exact if_neg hf

end Instruction

open Instruction

namespace Layout

/-- What an instruction cannot be written for, in a layout. -/
inductive Refuses (l : Layout) : Handle × Instruction Handle → Fault → Prop
  | tooFar {h target : Handle} {condition : Condition} {offset there : Nat}
    (ho : l.offsetOf? h = some offset) (ht : l.offsetOf? target = some there)
    (hd : ¬ Near (there - offset)) :
    Refuses l (h, .branch condition target) (.branchTooFar offset (there - offset))
  | noCases {h default : Handle} {low : Int32} {offset : Nat} (ho : l.offsetOf? h = some offset) :
    Refuses l (h, .tableSwitch default low []) (.malformedCode offset .noCases)
  | highCase {h default : Handle} {low : Int32} {cases : List Handle} {offset : Nat}
    (ho : l.offsetOf? h = some offset) (hc : cases ≠ [])
    (hh : 2147483647 < low.toInt + cases.length - 1) :
    Refuses l (h, .tableSwitch default low cases)
      (.malformedCode offset (.highCaseOverflow (low.toInt + cases.length - 1)))
  | repeatedKey {h default : Handle} {cases : List (Int32 × Handle)} {key : Int32} {offset : Nat}
    (ho : l.offsetOf? h = some offset) (hk : LeastRepeated cases key) :
    Refuses l (h, .lookupSwitch default cases) (.malformedCode offset (.repeatedKey key))

variable {l : Layout} {h : Handle} {i : Instruction Handle} {fault : Fault} {offset : Nat}
  {widened : Bool}

theorem exists_refuses {f : Handle → Int} (ho : l.offsetOf? h = some offset)
    (hf : ∀ t ∈ i.targets, ∃ there, l.offsetOf? t = some there ∧ f t = there - offset)
    (hw : ¬ i.Writable f) : ∃ fault, l.Refuses (h, i) fault := by
  cases i with
  | branch condition target =>
    obtain ⟨there, ht, hd⟩ := hf target List.mem_cons_self
    rw [Writable, hd] at hw
    exact ⟨_, .tooFar ho ht hw⟩
  | tableSwitch default low cases =>
    by_cases hc : cases = []
    · subst hc
      exact ⟨_, .noCases ho⟩
    · exact ⟨_, .highCase ho hc (Int.not_le.mp fun hh => hw ⟨hc, hh⟩)⟩
  | lookupSwitch default cases =>
    rw [Writable, ← repeatedKey?_sortCases] at hw
    obtain ⟨key, hk⟩ := Option.ne_none_iff_exists'.mp hw
    exact ⟨_, .repeatedKey ho (repeatedKey?_sortCases_eq_some.mp hk)⟩
  | _ => exact absurd trivial hw

/-- The fault says what the instruction is refused for. -/
theorem Refuses.bytes_eq (hr : l.Refuses (h, i) fault) (ho : l.offsetOf? h = some offset)
    (hwide : ∀ t ∈ i.targets, ∃ bytes, wideJumpBytes offset (l.distance offset) t = .ok bytes) :
    i.bytes offset widened (l.distance offset) = .error fault := by
  cases hr with
  | @tooFar _ target _ _ there ho' ht hd =>
    cases ho.symm.trans ho'
    have hdist : l.distance offset target = .ok (there - offset) := by
      rw [distance, ht]
    simp only [bytes, narrowJump_of_far hdist hd]
    rfl
  | noCases ho' =>
    cases ho.symm.trans ho'
    rfl
  | @highCase _ _ _ cases _ ho' hc hh =>
    cases ho.symm.trans ho'
    obtain ⟨first, hfirst⟩ := hwide _ List.mem_cons_self
    simp only [bytes, hfirst, Except.ok_bind]
    rw [if_neg (by simpa using hc), if_pos hh]
    rfl
  | repeatedKey ho' hk =>
    cases ho.symm.trans ho'
    simp only [bytes, repeatedKey?_sortCases_eq_some.mpr hk]
    rfl

end Layout

namespace InstructionSeq

open Layout

variable {s : InstructionSeq} {wide : Std.HashSet Handle} {item : Handle × Instruction Handle}
  {fault : Fault}

/-- In code that is not too long, and with no jump out of reach, an instruction ends the writing
with what it is refused for. -/
theorem bytes_eq_error (hs : s.Linked) (ho : (widening s wide).oversized s = [])
    (hc : (widening s wide).codeLength ≤ maxCodeLength) (hm : item ∈ s.toList) :
    item.2.bytes (rowOf s wide item).1.1 (rowOf s wide item).1.2.widened
        ((widening s wide).distance (rowOf s wide item).1.1) = .error fault ↔
      (widening s wide).Refuses item fault := by
  have hwrites := exists_writes hs ho hc hm
  obtain ⟨h, i⟩ := item
  have hh : h ∈ s.handles := List.mem_map_of_mem hm
  obtain ⟨offset, hoff, -⟩ := offsetOf?_of_mem wide hs hh
  have hrow : (rowOf s wide (h, i)).1.1 = offset := by simp [rowOf, hoff]
  simp only [Writes, hrow] at hwrites ⊢
  have hwide : ∀ t ∈ i.targets, ∃ bytes,
      wideJumpBytes offset ((widening s wide).distance offset) t = .ok bytes := by
    intro t ht
    obtain ⟨there, -, hdist, hlow, hup⟩ := distance_of_mem hs hc hoff hh (hs.targets _ hm t ht)
    exact exists_wideJumpBytes hdist hlow hup
  have hdest : ∀ offset t there, (widening s wide).offsetOf? h = some offset →
      (widening s wide).offsetOf? t = some there →
        (widening s wide).destination t - (widening s wide).destination h = there - offset := by
    intro offset t there hoff hthere
    rw [destination, destination, hoff, hthere, Option.getD_some, Option.getD_some]
  constructor
  · intro he
    have hnot : ¬ i.Writable fun target =>
        (widening s wide).destination target - (widening s wide).destination h := by
      intro hw
      obtain ⟨piece, hp⟩ := hwrites.mpr hw
      cases he.symm.trans hp
    obtain ⟨fault', hr⟩ := exists_refuses hoff (fun t ht => by
      obtain ⟨there, hthere, -⟩ := offsetOf?_of_mem wide hs (hs.targets _ hm t ht)
      exact ⟨there, hthere, hdest _ _ _ hoff hthere⟩) hnot
    cases he.symm.trans (hr.bytes_eq hoff hwide)
    exact hr
  · exact fun hr => hr.bytes_eq hoff hwide

/-- In code that is not too long, an instruction is written if it is not refused. -/
theorem exists_writes_iff (hs : s.Linked) (ho : (widening s wide).oversized s = [])
    (hc : (widening s wide).codeLength ≤ maxCodeLength) (hm : item ∈ s.toList) :
    (∃ piece, (widening s wide).Writes (rowOf s wide item) piece) ↔
      ∀ fault, ¬ (widening s wide).Refuses item fault := by
  simp only [Writes, Except.exists_eq_ok, ← bytes_eq_error hs ho hc hm]
  rfl

/-- Writing fails for the whole of the code or for one of its instructions. -/
theorem encodeIn_eq_error {l : Layout} : s.encodeIn l = .error fault ↔
    (maxCodeLength < l.codeLength ∧ fault = .codeTooLong l.codeLength) ∨
    (l.codeLength ≤ maxCodeLength ∧ (l.zip s).mapM (fun row =>
      row.2.bytes row.1.1 row.1.2.widened (l.distance row.1.1)) = .error fault) := by
  unfold encodeIn
  by_cases hc : l.codeLength > maxCodeLength
  · have hlt : ¬ l.codeLength ≤ maxCodeLength := Nat.not_le.mpr hc
    simp only [hc, hlt, if_true, Except.throw_eq, Except.error_bind, Except.error.injEq, true_and,
      false_and, or_false]
    exact eq_comm
  · have hle : l.codeLength ≤ maxCodeLength := Nat.not_lt.mp hc
    simp only [hc, hle, if_false, false_and, false_or, true_and]
    refine Except.bind_eq_error.trans (or_iff_left ?_)
    rintro ⟨pieces, -, h⟩
    cases h

/-- In code that is not too long, writing ends at the first instruction that is refused. -/
theorem encode_eq_error (hs : s.Linked) (hc : s.layout.codeLength ≤ maxCodeLength) :
    s.encode = .error fault ↔ ∃ before item after, s.toList = before ++ item :: after ∧
      (∀ earlier ∈ before, ∀ f, ¬ s.layout.Refuses earlier f) ∧ s.layout.Refuses item fault := by
  obtain ⟨wide, hl, -⟩ := exists_widening s
  have ho : (widening s wide).oversized s = [] := hl ▸ oversized_layout s
  rw [hl] at hc ⊢
  rw [encode, hl, encodeIn_eq_error, or_iff_right fun h => absurd h.1 (Nat.not_lt.mpr hc),
    and_iff_right hc, zip_widening hs, List.mapM_map, Except.mapM_eq_error]
  refine exists_congr fun before => exists_congr fun item => exists_congr fun after => ?_
  refine and_congr_right fun hsplit => ?_
  have hm : ∀ x ∈ before ++ item :: after, x ∈ s.toList := fun x hx => hsplit ▸ hx
  refine and_congr (forall₂_congr fun earlier he => ?_) ?_
  · exact exists_writes_iff hs ho hc (hm _ (List.mem_append_left _ he))
  · exact bytes_eq_error hs ho hc (hm _ (List.mem_append_right _ List.mem_cons_self))

theorem exists_encode_iff (hs : s.Linked) (hc : s.layout.codeLength ≤ maxCodeLength) :
    (∃ bytes, s.encode = .ok bytes) ↔
      ∀ item ∈ s.toList, ∀ fault, ¬ s.layout.Refuses item fault := by
  obtain ⟨wide, hl, -⟩ := exists_widening s
  have ho : (widening s wide).oversized s = [] := hl ▸ oversized_layout s
  rw [exists_encode hs, and_iff_right hc]
  rw [hl] at hc
  refine forall₂_congr fun item hm => ?_
  have hd : s.distance item.1 = fun target =>
      (widening s wide).destination target - (widening s wide).destination item.1 := by
    funext target
    rw [InstructionSeq.distance, hl]
  rw [hl, hd]
  exact (exists_writes hs ho hc hm).symm.trans (exists_writes_iff hs ho hc hm)

theorem encode_eq_codeTooLong (hs : s.Linked) {n : Nat} : s.encode = .error (.codeTooLong n) ↔
    n = s.layout.codeLength ∧ maxCodeLength < n := by
  by_cases hc : s.layout.codeLength ≤ maxCodeLength
  · rw [encode_eq_error hs hc]
    constructor
    · rintro ⟨_, _, _, _, _, hr⟩
      cases hr
    · rintro ⟨rfl, hlt⟩
      exact absurd hc (Nat.not_le.mpr hlt)
  · rw [encode, encodeIn_eq_error, or_iff_left fun h => hc h.1, Fault.codeTooLong.injEq]
    constructor
    · rintro ⟨hlt, rfl⟩
      exact ⟨rfl, hlt⟩
    · rintro ⟨rfl, hlt⟩
      exact ⟨hlt, rfl⟩

/-- What is refused for its distance is a branch. -/
theorem branch_of_bytes {offset o : Nat} {placed : Placed} {i : Instruction Handle} {h : Handle}
    {d : Int} (hs : s.Linked) (hc : s.layout.codeLength ≤ maxCodeLength) (hm : (h, i) ∈ s.toList)
    (hp : s.layout.placed? h = some (offset, placed))
    (he : i.bytes offset placed.widened (s.layout.distance offset) = .error (.branchTooFar o d)) :
    ∃ condition target, i = .branch condition target := by
  obtain ⟨wide, hl, -⟩ := exists_widening s
  have ho : (widening s wide).oversized s = [] := hl ▸ oversized_layout s
  rw [hl] at hc hp he
  obtain ⟨xs, ys, hsplit⟩ := List.append_of_mem hm
  have hrow : rowOf s wide (h, i) = ((offset, placed), i) := by
    rw [widening_placed? wide hs hsplit] at hp
    cases hp
    rw [rowOf, widening_offsetOf? wide hs hsplit]
    rfl
  have hr : (widening s wide).Refuses (h, i) (.branchTooFar o d) :=
    (bytes_eq_error hs ho hc hm).mp (by rwa [hrow])
  cases hr with
  | @tooFar _ target condition => exact ⟨condition, target, rfl⟩

/-- Whether a sequence can be written, and what becomes of it if not. Code that is too long is
refused with its length. Other code is written if none of its instructions is refused, and else it
fails with what the first such instruction is refused for. Only branches are refused for their
distance. -/
theorem encode_outcome (hs : s.Reachable) :
    (∀ n, s.encode = .error (.codeTooLong n) ↔ n = s.layout.codeLength ∧ maxCodeLength < n) ∧
    (s.layout.codeLength ≤ maxCodeLength →
      ((∃ bytes, s.encode = .ok bytes) ↔
        ∀ item ∈ s.toList, ∀ fault, ¬ s.layout.Refuses item fault) ∧
      (∀ fault, s.encode = .error fault ↔ ∃ before item after,
        s.toList = before ++ item :: after ∧
        (∀ earlier ∈ before, ∀ f, ¬ s.layout.Refuses earlier f) ∧
        s.layout.Refuses item fault) ∧
      ∀ h i offset placed, (h, i) ∈ s.toList → s.layout.placed? h = some (offset, placed) →
        (∀ condition target, i ≠ .branch condition target) → ∀ o d,
          i.bytes offset placed.widened (s.layout.distance offset) ≠
            .error (.branchTooFar o d)) := by
  refine ⟨fun n => encode_eq_codeTooLong hs.linked, fun hc => ⟨exists_encode_iff hs.linked hc,
    fun fault => encode_eq_error hs.linked hc, ?_⟩⟩
  intro h i offset placed hm hp hi o d he
  obtain ⟨condition, target, rfl⟩ := branch_of_bytes hs.linked hc hm hp he
  exact hi condition target rfl

/-- A return, a switch that has a key twice, and a switch without cases. -/
def twiceFlawed : InstructionSeq :=
  ofList [.simple .returnVoid, .lookupSwitch ⟨0, 0⟩ [(7, ⟨0, 0⟩), (7, ⟨0, 0⟩)],
    .tableSwitch ⟨0, 0⟩ 0 []]

theorem twiceFlawed_reachable : twiceFlawed.Reachable :=
  reachable_ofList (by decide) (by decide)

theorem encode_outcome_twiceFlawed : twiceFlawed.Reachable ∧
    twiceFlawed.layout.codeLength ≤ maxCodeLength ∧
    twiceFlawed.encode = .error (.malformedCode 1 (.repeatedKey 7)) := by
  have hl : twiceFlawed.layout = widening twiceFlawed ∅ := rfl
  have hc : twiceFlawed.layout.codeLength ≤ maxCodeLength := by
    rw [hl, codeLength, widening_table, contains_empty]
    decide
  have hsplit : twiceFlawed.toList = [(⟨0, 0⟩, .simple .returnVoid)] ++
    (⟨1, 0⟩, .lookupSwitch ⟨0, 0⟩ [(7, ⟨0, 0⟩), (7, ⟨0, 0⟩)]) ::
      [(⟨2, 0⟩, .tableSwitch ⟨0, 0⟩ 0 [])] := rfl
  have ho : twiceFlawed.layout.offsetOf? ⟨1, 0⟩ = some 1 := by
    rw [hl, widening_offsetOf? ∅ twiceFlawed_reachable.linked hsplit, contains_empty]
    rfl
  refine ⟨twiceFlawed_reachable, hc, ?_⟩
  obtain ⟨-, hfail, -⟩ := (encode_outcome twiceFlawed_reachable).2 hc
  refine (hfail _).mpr ⟨_, _, _, hsplit, ?_, ?_⟩
  · intro earlier he f hr
    cases List.mem_singleton.mp he
    cases hr
  · exact .repeatedKey ho (leastRepeated_of_repeatedKey? (by decide) rfl)

end InstructionSeq

end Classfile
