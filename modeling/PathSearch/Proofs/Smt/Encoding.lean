import PathSearch.Proofs.Smt.Forced
import PathSearch.Proofs.Smt.Represented

/-! # The circuit of a script

Every model that meets a script gives an assignment that satisfies all clauses of the script's circuit.
-/

namespace PathSearch.Smt

namespace Labelled

variable {L : Labelled} {bits : List Lit} {w n k : Nat}

/-- Literals that show another number meet the clause that they do. -/
theorem Shows.meets_differs (h : L.Shows w bits n) (yes : L.Bit Lit.yes true) (other : n ≠ k) :
    ∀ clause ∈ Circuit.differs bits k, L.Meets clause := by
  intro clause hc
  unfold Circuit.differs at hc
  dsimp only at hc
  split at hc
  · cases hc
  rename_i stated
  obtain ⟨small, -⟩ := not_or.mp stated
  rw [Nat.pow_eq, h.length_eq, Nat.not_le] at small
  obtain rfl := List.mem_singleton.mp hc
  obtain ⟨i, differ⟩ : ∃ i, n.testBit i ≠ k.testBit i := by
    by_contra all
    exact other (Nat.eq_of_testBit_eq fun i => by_contra fun differ => all ⟨i, differ⟩)
  have inside : i < w := by
    by_contra outside
    have far : 2 ^ w ≤ 2 ^ i := Nat.pow_le_pow_right Nat.two_pos (Nat.not_lt.mp outside)
    exact differ (by rw [Nat.testBit_lt_two_pow (h.lt.trans_le far), Nat.testBit_lt_two_pow (small.trans_le far)])
  obtain ⟨l, here⟩ : ∃ l, bits[i]? = some l := ⟨_, List.getElem?_eq_getElem (h.length_eq.symm ▸ inside)⟩
  have hl := h.testBit here
  have place : (Circuit.constBits bits.length k)[i]? = some (Lit.ofBool (k.testBit i)) := by
    simp [Circuit.constBits, h.length_eq, inside]
  have holds : L.Bit (if Lit.ofBool (k.testBit i) = Lit.yes then l.neg else l) true := by
    cases bit : k.testBit i
    · have same : (if Lit.ofBool false = Lit.yes then l.neg else l) = l := if_neg (by decide)
      rw [same]
      exact hl.is (by simpa [bit] using differ)
    · have same : (if Lit.ofBool true = Lit.yes then l.neg else l) = l.neg := if_pos rfl
      rw [same]
      exact hl.neg.is (by simpa [bit] using differ)
  refine ⟨_, ?_, holds⟩
  rw [List.mem_toArray, List.mem_eraseDups, List.mem_filter]
  refine ⟨List.mem_map.mpr ⟨(l, Lit.ofBool (k.testBit i)), ?_, rfl⟩, ?_⟩
  · exact List.mem_of_getElem? (List.getElem?_zip_eq_some.mpr ⟨here, place⟩)
  · refine decide_eq_true fun no => ?_
    rw [no] at holds
    cases holds.unique yes.neg

/-- The literals of a line show its number, also where there is no such line. -/
theorem Aligned.getD {before : Array (List Lit)} {vs : Array Bits} (aligned : L.Aligned before vs) (i : Nat) :
    ∃ w, L.Shows w (before.getD i []) (vs.getD i default).value.toNat := by
  cases here : vs[i]? with
  | some b =>
      rw [getD_of_some here]
      exact ⟨b.width, aligned.shows here⟩
  | none =>
      have outside : before[i]? = none := by
        rw [Array.getElem?_eq_none_iff] at here ⊢
        rwa [aligned.size]
      rw [getD_of_none here, getD_of_none outside]
      exact ⟨0, .nil⟩

/-- The lowest literal of a line that is 1. -/
theorem Shows.headD (h : L.Shows w bits 1) : L.Bit (bits.headD Lit.no) true := by
  generalize same : 1 = n at h
  cases h with
  | nil => cases same
  | @cons l b w bits n first rest =>
      cases b
      · rw [Nat.bit_val, Bool.toNat_false] at same
        omega
      · exact first

end Labelled

namespace World

open Labelled Circuit

variable {m : Model} {W : World m} {before : Array (List Lit)} {vs : Array Bits} {α : Type}

theorem allBits_gives {lines : List Line} {ws : Array Nat} (aligned : W.Aligned before vs)
    (fits : Script.widthsFrom (vs.map Bits.width) lines = some ws) :
    W.Gives (lines.foldlM (fun before line => return before.push (← sharedBits before line)) before)
      fun V out => V.Aligned out (Script.valuesFrom m vs lines) := by
  induction lines generalizing W before vs with
  | nil => exact .pure aligned
  | cons line rest ih =>
      obtain ⟨w, first, later⟩ := Script.widthsFrom_cons (m := m) fits
      rw [List.foldlM_cons]
      have next : W.Gives (do return before.push (← sharedBits before line))
          fun V out => V.Aligned out (vs.push (line.eval m vs)) :=
        (sharedBits_gives aligned first).map fun V bits grown shows =>
          (grown.aligned aligned).push shows
      exact next.bind fun V out _ aligned => ih aligned later

theorem forM_gives {list : List α} {f : α → Wiring Unit}
    (each : ∀ V : World m, W ≤ V → ∀ a ∈ list, V.Gives (f a) fun _ _ => True) :
    W.Gives (list.forM f) fun _ _ => True := by
  induction list generalizing W with
  | nil => exact .pure trivial
  | cons a rest ih =>
      refine Gives.bind (each W le_rfl a (.head _)) fun V _ grown _ => ?_
      exact ih fun U later b hb => each U (grown.trans later) b (.tail _ hb)

/-- The circuit before anything is built. -/
def start (m : Model) : World m where
  circuit := {}
  truth _ := true
  atoms _ := 0
  yes := ⟨Nat.one_pos, rfl⟩
  clauses clause hc := by
    obtain rfl := List.mem_singleton.mp hc
    exact ⟨Lit.yes, by simp, Nat.one_pos, rfl⟩
  gates found := by simp at found
  makers found := by simp at found
  inputs found := by simp at found
  polynomials found := by simp at found
  represented found := by simp at found

theorem setInputs_gives {known : List (String × Bits)}
    (right : ∀ name b, (name, b) ∈ known → m name % 2 ^ b.width = b.value.toNat) :
    W.Gives (setInputs known) fun _ _ => True := by
  let L : Labelled := { W with
    circuit := { W.circuit with
      inputs := known.map fun x => (x.1, constBits x.2.width x.2.value.toNat) } }
  have step : W.Step L :=
    { inputs := fun {name bits} found => by
        obtain ⟨⟨name', b⟩, inside, same⟩ := List.mem_map.mp found
        cases same
        have shows := shows_const W.yes b.width b.value.toNat
        rw [shows.length_eq]
        exact .inr (shows.is (by rw [right name' b inside, Nat.mod_eq_of_lt b.value.isLt])) }
  exact .step step rfl trivial

theorem demand_gives {s : Script} {ws : Array Nat} (fits : s.widths? = some ws) (meets : s.holds m = true) :
    (start m).Gives (demand s) fun _ _ => True := by
  obtain ⟨asserted, excluded⟩ := (s.holds_eq_true_iff m).mp meets
  unfold demand
  refine (setInputs_gives fun _ _ inside => Forced.inputs_right fits meets inside).bind fun V _ _ _ => ?_
  have fits : Script.widthsFrom ((#[] : Array Bits).map Bits.width) s.lines.toList = some ws := by
    rwa [Array.map_empty]
  refine (allBits_gives (.nil V.toLabelled) fits).bind fun V bits _ aligned => ?_
  rw [← Script.values_eq] at aligned
  refine Gives.bind (forM_gives fun U grown i hi => addClauses_gives ?_) fun U _ grown _ => ?_
  · obtain ⟨w, shows⟩ := (grown.aligned aligned).getD i
    have one : ((s.values m).getD i default).value.toNat = 1 := asserted i hi
    rw [one] at shows
    intro clause hc
    obtain rfl := List.mem_singleton.mp hc
    exact ⟨_, by simp, shows.headD⟩
  · refine forM_gives fun T later x hx => addClauses_gives ?_
    obtain ⟨w, shows⟩ := ((grown.trans later).aligned aligned).getD x.1
    exact shows.meets_differs T.yes (excluded x hx)

/-- An assignment for every model that meets a script: it satisfies all clauses of the circuit. -/
theorem exists_of_holds {s : Script} {ws : Array Nat} (fits : s.widths? = some ws) (meets : s.holds m = true) :
    ∃ σ : Valuation, ∀ clause ∈ (ofScript s).clauses, Holds σ clause := by
  obtain ⟨W, -, ends, -⟩ := demand_gives fits meets
  refine ⟨W.truth, fun clause hc => ?_⟩
  obtain ⟨l, hl, known⟩ := W.clauses clause (ends ▸ hc)
  exact ⟨l, hl, known.2⟩

end World

end PathSearch.Smt
