import PathSearch.Proofs.Smt.World

/-! # Gates

Every gate gives the bit that it is made for, also where constants are folded away, inputs are absorbed or
cancelled and a gate is made only once.
-/

namespace PathSearch.Smt

namespace Labelled

variable {L : Labelled} {l k : Lit} {b x y z : Bool}

namespace Bit

theorem is (h : L.Bit l x) (same : x = y) : L.Bit l y := same ▸ h

theorem unique (first : L.Bit l x) (second : L.Bit l y) : x = y := first.2.symm.trans second.2

theorem neg (h : L.Bit l b) : L.Bit l.neg (!b) :=
  ⟨(Lit.neg_div l).symm ▸ h.1, (Lit.holds_neg ..).trans (congrArg _ h.2)⟩

/-- The variable of a literal. -/
theorem base (h : L.Bit l b) : L.Bit (2 * (l / 2)) (b != (l % 2 == 1)) := by
  refine ⟨by rw [Nat.mul_div_right _ Nat.zero_lt_two]; exact h.1, ?_⟩
  rw [← h.2, Lit.holds, Lit.holds, Nat.mul_div_right _ Nat.zero_lt_two, Nat.mul_mod_right]
  cases L.truth (l / 2) <;> cases l % 2 == 1 <;> rfl

end Bit

theorem meets_two (hl : L.Bit l x) (hk : L.Bit k y) (one : (x || y) = true) : L.Meets #[l, k] := by
  rcases Bool.or_eq_true_iff.mp one with rfl | rfl
  · exact ⟨l, by simp, hl⟩
  · exact ⟨k, by simp, hk⟩

theorem meets_three {j : Lit} (hl : L.Bit l x) (hk : L.Bit k y) (hj : L.Bit j z)
    (one : (x || y || z) = true) : L.Meets #[l, k, j] := by
  rcases Bool.or_eq_true_iff.mp one with one | rfl
  · rcases Bool.or_eq_true_iff.mp one with rfl | rfl
    · exact ⟨l, by simp, hl⟩
    · exact ⟨k, by simp, hk⟩
  · exact ⟨j, by simp, hj⟩

end Labelled

namespace World

open Labelled Circuit

variable {m : Model} {W V : World m} {a b c out : Lit} {x y z : Bool}

theorem no (W : World m) : W.Bit Lit.no false := W.yes.neg

theorem fresh_gives (W : World m) (b : Bool) : W.Gives fresh fun V l => V.Bit l b := by
  let L : Labelled :=
    { circuit := { W.circuit with size := W.circuit.size + 1 }
      truth := Function.update W.truth W.circuit.size b
      atoms := W.atoms }
  have step : W.Step L :=
    { before := ⟨Nat.le_succ _, fun _ hv => Function.update_of_ne (Nat.ne_of_lt hv) .., Nat.le_refl _,
        fun _ _ => rfl⟩ }
  refine .step step rfl ⟨?_, ?_⟩
  · show 2 * W.circuit.size / 2 < W.circuit.size + 1
    omega
  · show Lit.holds (Function.update W.truth W.circuit.size b) (2 * W.circuit.size) = b
    rw [Lit.holds, Nat.mul_div_right _ Nat.zero_lt_two, Function.update_self, Nat.mul_mod_right]
    cases b <;> rfl

theorem addClauses_gives {clauses : List (Array Lit)} (met : ∀ clause ∈ clauses, W.Meets clause) :
    W.Gives (addClauses clauses) fun _ _ => True := by
  let L : Labelled := { W with circuit := { W.circuit with clauses := clauses ++ W.circuit.clauses } }
  have step : W.Step L :=
    { clauses := fun clause hc => (List.mem_append.mp hc).elim (fun new => .inr (met clause new)) .inl }
  exact .step step rfl trivial

theorem addGate_gives {kind : Gate} (made : W.Makes kind a b c out) :
    W.Gives (modify fun s => { s with
        gates := s.gates.insert (kind, a, b, c) out
        makers := s.makers.insert out (kind, a, b) }) fun _ _ => True := by
  let L : Labelled := { W with
    circuit := { W.circuit with
      gates := W.circuit.gates.insert (kind, a, b, c) out
      makers := W.circuit.makers.insert out (kind, a, b) } }
  have step : W.Step L :=
    { gates := fun {_ _ _ _ _} found => by
        rw [Std.HashMap.getElem?_insert] at found
        split at found
        · rename_i same
          cases beq_iff_eq.mp same
          cases found
          exact .inr made
        · exact .inl found
      makers := fun {_ _ _ _} found => by
        rw [Std.HashMap.getElem?_insert] at found
        split at found
        · rename_i same
          cases beq_iff_eq.mp same
          cases found
          exact .inr ⟨c, made⟩
        · exact .inl found }
  exact .step step rfl trivial

theorem gate_gives (kind : Gate) {define : Lit → List (Array Lit)} (ha : W.Bit a x) (hb : W.Bit b y)
    (hc : W.Bit c z) (defines : ∀ (V : World m) (out : Lit), W ≤ V → V.Bit out (kind.value x y z) →
      ∀ clause ∈ define out, V.Meets clause) :
    W.Gives (gate kind a b c define) fun V out => V.Bit out (kind.value x y z) := by
  refine .get ?_
  split
  · rename_i out found
    obtain ⟨x', y', z', ha', hb', hc', hout⟩ := W.gates found
    rw [ha.unique ha', hb.unique hb', hc.unique hc']
    exact .pure hout
  · refine (W.fresh_gives (kind.value x y z)).bind fun V out grown hout => ?_
    refine (addClauses_gives (defines V out grown hout)).bind fun U _ grown' _ => ?_
    have made : U.Makes kind a b c out :=
      ⟨x, y, z, (grown.trans grown').bit ha, (grown.trans grown').bit hb, (grown.trans grown').bit hc,
        grown'.bit hout⟩
    exact (addGate_gives made).map fun T _ grown'' _ => grown''.bit (grown'.bit hout)

theorem pure_some_gives (h : W.Bit out z) :
    W.Gives (pure (some out)) fun V known => ∀ out ∈ known, V.Bit out z :=
  .pure fun _ known => Option.some.inj known ▸ h

theorem pure_none_gives : W.Gives (pure none) fun V known => ∀ out ∈ known, V.Bit out z := .pure nofun

theorem absorbed_gives (ha : W.Bit a x) (hb : W.Bit b y) :
    W.Gives (absorbed? a b) fun V known => ∀ out ∈ known, V.Bit out (x && y) := by
  refine .get ?_
  split
  · rename_i p q found
    obtain ⟨c, u, v, w, hp, hq, -, hout⟩ := W.makers found
    have value : (x != (a % 2 == 1)) = (u && v) := ha.base.unique hout
    refine .ite (fun even => ?_) fun odd => ?_
    · obtain rfl : x = (u && v) := by simpa [even] using value
      refine .ite (fun same => pure_some_gives (ha.is ?_)) fun _ =>
        .ite (fun same => pure_some_gives (W.no.is ?_)) fun _ => pure_none_gives
      · rcases same with rfl | rfl
        · rw [hb.unique hp]
          cases u <;> cases v <;> rfl
        · rw [hb.unique hq]
          cases u <;> cases v <;> rfl
      · rcases same with rfl | rfl
        · rw [hb.unique hp.neg]
          cases u <;> cases v <;> rfl
        · rw [hb.unique hq.neg]
          cases u <;> cases v <;> rfl
    · obtain rfl : x = !(u && v) := by
        simpa [(Nat.mod_two_eq_zero_or_one a).resolve_left odd] using value
      refine .ite (fun same => pure_some_gives (hb.is ?_)) fun _ => pure_none_gives
      rcases same with rfl | rfl
      · rw [hb.unique hp.neg]
        cases u <;> cases v <;> rfl
      · rw [hb.unique hq.neg]
        cases u <;> cases v <;> rfl
  · exact pure_none_gives

theorem and_gives (ha : W.Bit a x) (hb : W.Bit b y) : W.Gives (and a b) fun V out => V.Bit out (x && y) := by
  unfold Circuit.and
  refine .ite (fun off => ?_) fun _ => ?_
  · refine .pure (W.no.is ?_)
    rcases off with rfl | rfl | rfl
    · rw [ha.unique W.no, Bool.false_and]
    · rw [hb.unique W.no, Bool.and_false]
    · rw [ha.unique hb.neg, Bool.not_and_self]
  refine .ite (fun idle => ?_) fun _ => ?_
  · refine .pure (hb.is ?_)
    rcases idle with rfl | rfl
    · rw [ha.unique W.yes, Bool.true_and]
    · rw [ha.unique hb, Bool.and_self]
  refine .ite (fun idle => ?_) fun _ => ?_
  · subst idle
    exact .pure (ha.is (by rw [hb.unique W.yes, Bool.and_true]))
  refine (absorbed_gives ha hb).bind fun V first grown hfirst => ?_
  refine (absorbed_gives (grown.bit hb) (grown.bit ha)).bind fun U second grown' hsecond => ?_
  split
  · exact .pure (grown'.bit (hfirst _ rfl))
  · exact .pure ((hsecond _ rfl).is (Bool.and_comm ..))
  · have ha := (grown.trans grown').bit ha
    have hb := (grown.trans grown').bit hb
    have defines (T : World m) (out : Lit) (later : U ≤ T) (hout : T.Bit out (x && y)) :
        ∀ clause ∈ [#[out.neg, a], #[out.neg, b], #[out, a.neg, b.neg]], T.Meets clause := by
      have ha := later.bit ha
      have hb := later.bit hb
      simp only [List.forall_mem_cons, List.not_mem_nil, false_implies, implies_true, and_true]
      exact ⟨meets_two hout.neg ha (by cases x <;> cases y <;> rfl),
        meets_two hout.neg hb (by cases x <;> cases y <;> rfl),
        meets_three hout ha.neg hb.neg (by cases x <;> cases y <;> rfl)⟩
    rcases Nat.le_total a b with le | le
    · rw [Nat.min_eq_left le, Nat.max_eq_right le]
      exact gate_gives .and ha hb U.yes defines
    · rw [Nat.min_eq_right le, Nat.max_eq_left le]
      refine (gate_gives .and hb ha U.yes fun T out later hout => ?_).mono fun T out _ hout => ?_
      · exact defines T out later (hout.is (Bool.and_comm ..))
      · exact hout.is (Bool.and_comm ..)

theorem or_gives (ha : W.Bit a x) (hb : W.Bit b y) : W.Gives (or a b) fun V out => V.Bit out (x || y) :=
  (and_gives ha.neg hb.neg).map fun _ _ _ hout => hout.neg.is (by cases x <;> cases y <;> rfl)

theorem cancelled_gives (ha : W.Bit a x) (hb : W.Bit b y) :
    W.Gives (cancelled? a b) fun V known => ∀ out ∈ known, V.Bit out (x != y) := by
  refine .get ?_
  split
  · rename_i p q found
    obtain ⟨c, u, v, w, hp, hq, -, hout⟩ := W.makers found
    have value : x = (u != v) := ha.unique hout
    refine .ite (fun same => pure_some_gives (hq.is ?_)) fun _ =>
      .ite (fun same => pure_some_gives (hp.is ?_)) fun _ => pure_none_gives
    · rw [value, hb.unique (same ▸ hp)]
      cases u <;> cases v <;> rfl
    · rw [value, hb.unique (same ▸ hq)]
      cases u <;> cases v <;> rfl
  · exact pure_none_gives

theorem xorGate_gives (ha : W.Bit a x) (hb : W.Bit b y) :
    W.Gives (gate .xor (min a b) (max a b) 0 fun o =>
      [#[o.neg, a, b], #[o.neg, a.neg, b.neg], #[o, a.neg, b], #[o, a, b.neg]])
      fun V out => V.Bit out (x != y) := by
  have defines (V : World m) (out : Lit) (later : W ≤ V) (hout : V.Bit out (x != y)) :
      ∀ clause ∈ [#[out.neg, a, b], #[out.neg, a.neg, b.neg], #[out, a.neg, b], #[out, a, b.neg]],
        V.Meets clause := by
    have ha := later.bit ha
    have hb := later.bit hb
    simp only [List.forall_mem_cons, List.not_mem_nil, false_implies, implies_true, and_true]
    exact ⟨meets_three hout.neg ha hb (by cases x <;> cases y <;> rfl),
      meets_three hout.neg ha.neg hb.neg (by cases x <;> cases y <;> rfl),
      meets_three hout ha.neg hb (by cases x <;> cases y <;> rfl),
      meets_three hout ha hb.neg (by cases x <;> cases y <;> rfl)⟩
  rcases Nat.le_total a b with le | le
  · rw [Nat.min_eq_left le, Nat.max_eq_right le]
    exact gate_gives .xor ha hb W.yes defines
  · rw [Nat.min_eq_right le, Nat.max_eq_left le]
    refine (gate_gives .xor hb ha W.yes fun V out later hout => ?_).mono fun V out _ hout => ?_
    · exact defines V out later (hout.is (Bool.xor_comm ..))
    · exact hout.is (Bool.xor_comm ..)

theorem xor_gives (ha : W.Bit a x) (hb : W.Bit b y) : W.Gives (xor a b) fun V out => V.Bit out (x != y) := by
  unfold Circuit.xor
  refine .ite (fun same => ?_) fun _ => ?_
  · subst same
    exact .pure (hb.is (by rw [ha.unique W.no, Bool.false_bne]))
  refine .ite (fun same => ?_) fun _ => ?_
  · subst same
    exact .pure (ha.is (by rw [hb.unique W.no, Bool.bne_false]))
  refine .ite (fun same => ?_) fun _ => ?_
  · subst same
    exact .pure (hb.neg.is (by rw [ha.unique W.yes, Bool.true_bne]))
  refine .ite (fun same => ?_) fun _ => ?_
  · subst same
    exact .pure (ha.neg.is (by rw [hb.unique W.yes, Bool.bne_true]))
  refine .ite (fun same => ?_) fun _ => ?_
  · subst same
    exact .pure (W.no.is (by rw [ha.unique hb, bne_self_eq_false]))
  refine .ite (fun same => ?_) fun _ => ?_
  · subst same
    exact .pure (W.yes.is (by rw [ha.unique hb.neg]; cases y <;> rfl))
  dsimp only
  refine (cancelled_gives ha.base hb.base).bind fun V first grown hfirst => ?_
  refine (cancelled_gives (grown.bit hb.base) (grown.bit ha.base)).bind fun U second grown' hsecond => ?_
  have result {T : World m} {out : Lit}
      (hout : T.Bit out ((x != (a % 2 == 1)) != (y != (b % 2 == 1)))) :
      T.Bit (if (a + b) % 2 = 0 then out else out.neg) (x != y) := by
    rcases Nat.mod_two_eq_zero_or_one a with ea | ea <;> rcases Nat.mod_two_eq_zero_or_one b with eb | eb
    all_goals rw [ea, eb] at hout; rw [Nat.add_mod, ea, eb]
    · exact hout.is (by cases x <;> cases y <;> rfl)
    · exact hout.neg.is (by cases x <;> cases y <;> rfl)
    · exact hout.neg.is (by cases x <;> cases y <;> rfl)
    · exact hout.is (by cases x <;> cases y <;> rfl)
  split
  · exact .map (.pure (grown'.bit (hfirst _ rfl))) fun _ _ _ => result
  · exact .map (.pure ((hsecond _ rfl).is (Bool.xor_comm ..))) fun _ _ _ => result
  · exact .map (xorGate_gives ((grown.trans grown').bit ha.base) ((grown.trans grown').bit hb.base))
      fun _ _ _ => result

theorem mux_gives (hc : W.Bit c z) (ha : W.Bit a x) (hb : W.Bit b y) :
    W.Gives (mux c a b) fun V out => V.Bit out (if z then x else y) := by
  unfold mux
  refine .ite (fun first => ?_) fun _ => ?_
  · refine .pure (ha.is ?_)
    rcases first with rfl | rfl
    · rw [hc.unique W.yes, if_pos rfl]
    · rw [ha.unique hb, ite_self]
  refine .ite (fun same => ?_) fun _ => ?_
  · subst same
    exact .pure (hb.is (by rw [hc.unique W.no]; rfl))
  refine .ite (fun same => ?_) fun _ => ?_
  · subst same
    exact (or_gives hc hb).mono fun _ _ _ hout => hout.is (by rw [ha.unique W.yes]; cases z <;> rfl)
  refine .ite (fun same => ?_) fun _ => ?_
  · subst same
    exact (and_gives hc.neg hb).mono fun _ _ _ hout => hout.is (by rw [ha.unique W.no]; cases z <;> rfl)
  refine .ite (fun same => ?_) fun _ => ?_
  · subst same
    exact (or_gives hc.neg ha).mono fun _ _ _ hout =>
      hout.is (by rw [hb.unique W.yes]; cases z <;> cases x <;> rfl)
  refine .ite (fun same => ?_) fun _ => ?_
  · subst same
    exact (and_gives hc ha).mono fun _ _ _ hout =>
      hout.is (by rw [hb.unique W.no]; cases z <;> cases x <;> rfl)
  refine .ite (fun same => ?_) fun _ => ?_
  · subst same
    exact (xor_gives hc ha).map fun _ _ _ hout =>
      hout.neg.is (by rw [ha.unique hb.neg]; cases z <;> cases y <;> rfl)
  · refine gate_gives .mux hc ha hb fun V out later hout => ?_
    have hc := later.bit hc
    have ha := later.bit ha
    have hb := later.bit hb
    simp only [List.forall_mem_cons, List.not_mem_nil, false_implies, implies_true, and_true]
    exact ⟨meets_three hc.neg ha.neg hout (by cases z <;> cases x <;> rfl),
      meets_three hc.neg ha hout.neg (by cases z <;> cases x <;> rfl),
      meets_three hc hb.neg hout (by cases z <;> cases y <;> rfl),
      meets_three hc hb hout.neg (by cases z <;> cases y <;> rfl),
      meets_three ha.neg hb.neg hout (by cases z <;> cases x <;> cases y <;> rfl),
      meets_three ha hb hout.neg (by cases z <;> cases x <;> cases y <;> rfl)⟩

/-- Three numbers in ascending order. -/
theorem sorted_three (a b c : Nat) {P : Nat → Nat → Nat → Prop} (first : P a b c)
    (swap : ∀ {a b c}, P a b c → P b a c) (turn : ∀ {a b c}, P a b c → P b c a) :
    P (min a (min b c)) (a + b + c - min a (min b c) - max a (max b c)) (max a (max b c)) := by
  have ordered {lo mid hi : Nat} (here : P lo mid hi) (lowest : min a (min b c) = lo)
      (highest : max a (max b c) = hi) (sum : a + b + c = lo + mid + hi) :
      P (min a (min b c)) (a + b + c - min a (min b c) - max a (max b c)) (max a (max b c)) := by
    rw [lowest, highest, sum, Nat.add_assoc, Nat.add_sub_cancel_left, Nat.add_sub_cancel]
    exact here
  rcases Nat.le_total a b with ab | ab <;> rcases Nat.le_total b c with bc | bc
  · exact ordered first (by omega) (by omega) (by omega)
  · rcases Nat.le_total a c with ac | ac
    · exact ordered (swap (turn (turn first))) (by omega) (by omega) (by omega)
    · exact ordered (turn (turn first)) (by omega) (by omega) (by omega)
  · rcases Nat.le_total a c with ac | ac
    · exact ordered (swap first) (by omega) (by omega) (by omega)
    · exact ordered (turn first) (by omega) (by omega) (by omega)
  · exact ordered (swap (turn first)) (by omega) (by omega) (by omega)

theorem majorityGate_gives (ha : W.Bit a x) (hb : W.Bit b y) (hc : W.Bit c z) :
    W.Gives (majorityGate a b c) fun V out => V.Bit out (Bool.atLeastTwo x y z) := by
  let Inputs (lo mid hi : Nat) : Prop := ∃ x' y' z', W.Bit lo x' ∧ W.Bit mid y' ∧ W.Bit hi z' ∧
    Bool.atLeastTwo x' y' z' = Bool.atLeastTwo x y z
  have ordered := sorted_three a b c (P := Inputs) ⟨x, y, z, ha, hb, hc, rfl⟩
    (fun ⟨x', y', z', ha', hb', hc', same⟩ => ⟨y', x', z', hb', ha', hc',
      same ▸ by cases x' <;> cases y' <;> cases z' <;> rfl⟩)
    (fun ⟨x', y', z', ha', hb', hc', same⟩ => ⟨y', z', x', hb', hc', ha',
      same ▸ by cases x' <;> cases y' <;> cases z' <;> rfl⟩)
  obtain ⟨x', y', z', hlo, hmid, hhi, same⟩ := ordered
  rw [← same]
  refine gate_gives .majority hlo hmid hhi fun V out later hout => ?_
  have hlo := later.bit hlo
  have hmid := later.bit hmid
  have hhi := later.bit hhi
  simp only [List.forall_mem_cons, List.not_mem_nil, false_implies, implies_true, and_true]
  exact ⟨meets_three hout.neg hlo hmid (by cases x' <;> cases y' <;> cases z' <;> rfl),
    meets_three hout.neg hlo hhi (by cases x' <;> cases y' <;> cases z' <;> rfl),
    meets_three hout.neg hmid hhi (by cases x' <;> cases y' <;> cases z' <;> rfl),
    meets_three hout hlo.neg hmid.neg (by cases x' <;> cases y' <;> cases z' <;> rfl),
    meets_three hout hlo.neg hhi.neg (by cases x' <;> cases y' <;> cases z' <;> rfl),
    meets_three hout hmid.neg hhi.neg (by cases x' <;> cases y' <;> cases z' <;> rfl)⟩

theorem majority_gives (ha : W.Bit a x) (hb : W.Bit b y) (hc : W.Bit c z) :
    W.Gives (majority a b c) fun V out => V.Bit out (Bool.atLeastTwo x y z) := by
  unfold majority
  refine .ite (fun same => ?_) fun _ => ?_
  · subst same
    exact .pure (ha.is (by rw [hb.unique ha]; cases x <;> cases z <;> rfl))
  refine .ite (fun same => ?_) fun _ => ?_
  · subst same
    exact .pure (ha.is (by rw [hc.unique ha]; cases x <;> cases y <;> rfl))
  refine .ite (fun same => ?_) fun _ => ?_
  · subst same
    exact .pure (hb.is (by rw [hc.unique hb]; cases x <;> cases y <;> rfl))
  refine .ite (fun same => ?_) fun _ => ?_
  · subst same
    exact .pure (hc.is (by rw [ha.unique hb.neg]; cases y <;> cases z <;> rfl))
  refine .ite (fun same => ?_) fun _ => ?_
  · subst same
    exact .pure (hb.is (by rw [ha.unique hc.neg]; cases y <;> cases z <;> rfl))
  refine .ite (fun same => ?_) fun _ => ?_
  · subst same
    exact .pure (ha.is (by rw [hb.unique hc.neg]; cases x <;> cases z <;> rfl))
  refine .ite (fun same => ?_) fun _ => ?_
  · subst same
    exact (and_gives hb hc).mono fun _ _ _ hout =>
      hout.is (by rw [ha.unique W.no]; cases y <;> cases z <;> rfl)
  refine .ite (fun same => ?_) fun _ => ?_
  · subst same
    exact (or_gives hb hc).mono fun _ _ _ hout =>
      hout.is (by rw [ha.unique W.yes]; cases y <;> cases z <;> rfl)
  refine .ite (fun same => ?_) fun _ => ?_
  · subst same
    exact (and_gives ha hc).mono fun _ _ _ hout =>
      hout.is (by rw [hb.unique W.no]; cases x <;> cases z <;> rfl)
  refine .ite (fun same => ?_) fun _ => ?_
  · subst same
    exact (or_gives ha hc).mono fun _ _ _ hout =>
      hout.is (by rw [hb.unique W.yes]; cases x <;> cases z <;> rfl)
  refine .ite (fun same => ?_) fun _ => ?_
  · subst same
    exact (and_gives ha hb).mono fun _ _ _ hout =>
      hout.is (by rw [hc.unique W.no]; cases x <;> cases y <;> rfl)
  refine .ite (fun same => ?_) fun _ => ?_
  · subst same
    exact (or_gives ha hb).mono fun _ _ _ hout =>
      hout.is (by rw [hc.unique W.yes]; cases x <;> cases y <;> rfl)
  · exact majorityGate_gives ha hb hc

end World

end PathSearch.Smt
