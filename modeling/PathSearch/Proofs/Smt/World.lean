import Mathlib.Order.Defs.PartialOrder
import Mathlib.Data.Nat.Bits
import PathSearch.Proofs.Smt.Derived
import PathSearch.Proofs.Smt.Polynomial

/-! # Circuits under a model

A circuit is built for a model of the script: with each new variable comes its truth, so that at every
time all clauses are met and every bit is the bit that the model gives it. What is known of literals stays
known when the circuit grows.
-/

namespace PathSearch.Smt

/-- What a gate computes. The last input counts only where there are three. -/
def Gate.value (kind : Gate) (x y z : Bool) : Bool :=
  match kind with
  | .and => x && y
  | .xor => x != y
  | .majority => Bool.atLeastTwo x y z
  | .mux => if x then y else z

/-- A circuit with the truth of its variables and the numbers that its atoms stand for. -/
structure Labelled where
  circuit : Circuit
  truth : Valuation
  atoms : Nat → Nat

namespace Labelled

variable {L L' : Labelled}

/-- A literal of the circuit and its truth. -/
def Bit (L : Labelled) (l : Lit) (b : Bool) : Prop := l / 2 < L.circuit.size ∧ l.holds L.truth = b

/-- Literals, the least significant first, that are the bits of a number. -/
inductive Shows (L : Labelled) : (width : Nat) → List Lit → Nat → Prop where
  | nil : L.Shows 0 [] 0
  | cons {l : Lit} {b : Bool} {width : Nat} {bits : List Lit} {n : Nat} :
      L.Bit l b → L.Shows width bits n → L.Shows (width + 1) (l :: bits) (Nat.bit b n)

/-- A literal of the clause is true. -/
def Meets (L : Labelled) (clause : Array Lit) : Prop := ∃ l ∈ clause, L.Bit l true

/-- The polynomial stands for the number, modulo `2 ^ width`. -/
def Stands (L : Labelled) (width : Nat) (p : Polynomial) (n : Nat) : Prop :=
  ∀ ρ, (∀ i < L.circuit.polynomials.size, ρ i = L.atoms i) → p.eval ρ ≡ n [MOD 2 ^ width]

/-- The literal is what the gate makes of its inputs. -/
def Makes (L : Labelled) (kind : Gate) (a b c out : Lit) : Prop :=
  ∃ x y z, L.Bit a x ∧ L.Bit b y ∧ L.Bit c z ∧ L.Bit out (kind.value x y z)

/-- The literals are the number that the polynomial stands for. -/
def Represents (L : Labelled) (width : Nat) (bits : List Lit) (p : Polynomial) : Prop :=
  ∃ n, L.Shows width bits n ∧ L.Stands width p n

/-- A circuit that has grown. -/
structure Before (L L' : Labelled) : Prop where
  size : L.circuit.size ≤ L'.circuit.size
  truth : ∀ v < L.circuit.size, L'.truth v = L.truth v
  known : L.circuit.polynomials.size ≤ L'.circuit.polynomials.size
  atoms : ∀ i < L.circuit.polynomials.size, L'.atoms i = L.atoms i

namespace Before

theorem refl (L : Labelled) : L.Before L :=
  ⟨Nat.le_refl _, fun _ _ => rfl, Nat.le_refl _, fun _ _ => rfl⟩

theorem trans {L'' : Labelled} (first : L.Before L') (second : L'.Before L'') : L.Before L'' where
  size := first.size.trans second.size
  truth v hv := (second.truth v (hv.trans_le first.size)).trans (first.truth v hv)
  known := first.known.trans second.known
  atoms i hi := (second.atoms i (hi.trans_le first.known)).trans (first.atoms i hi)

variable (grown : L.Before L')
include grown

theorem bit {l : Lit} {b : Bool} (h : L.Bit l b) : L'.Bit l b := by
  refine ⟨h.1.trans_le grown.size, ?_⟩
  rw [← h.2, Lit.holds, Lit.holds, grown.truth _ h.1]

theorem shows {width n : Nat} {bits : List Lit} (h : L.Shows width bits n) : L'.Shows width bits n := by
  induction h with
  | nil => exact .nil
  | cons first _ ih => exact .cons (grown.bit first) ih

theorem meets {clause : Array Lit} (h : L.Meets clause) : L'.Meets clause :=
  h.imp fun _ known => ⟨known.1, grown.bit known.2⟩

theorem stands {width n : Nat} {p : Polynomial} (h : L.Stands width p n) : L'.Stands width p n :=
  fun ρ same => h ρ fun i hi => (same i (hi.trans_le grown.known)).trans (grown.atoms i hi)

theorem makes {kind : Gate} {a b c out : Lit} (h : L.Makes kind a b c out) : L'.Makes kind a b c out := by
  obtain ⟨x, y, z, ha, hb, hc, hout⟩ := h
  exact ⟨x, y, z, grown.bit ha, grown.bit hb, grown.bit hc, grown.bit hout⟩

theorem represents {width : Nat} {bits : List Lit} {p : Polynomial} (h : L.Represents width bits p) :
    L'.Represents width bits p :=
  h.imp fun _ known => ⟨grown.shows known.1, grown.stands known.2⟩

end Before

end Labelled

/-- A circuit whose clauses are met, where gates have their values, variables of the script are what the
    model says, and what is known of polynomials is true. -/
structure World (m : Model) extends Labelled where
  yes : toLabelled.Bit Lit.yes true
  clauses : ∀ clause ∈ circuit.clauses, toLabelled.Meets clause
  gates : ∀ {kind a b c out}, circuit.gates[(kind, a, b, c)]? = some out → toLabelled.Makes kind a b c out
  makers : ∀ {out kind a b}, circuit.makers[out]? = some (kind, a, b) → ∃ c, toLabelled.Makes kind a b c out
  inputs : ∀ {name bits}, (name, bits) ∈ circuit.inputs →
    toLabelled.Shows bits.length bits (m name % 2 ^ bits.length)
  polynomials : ∀ {bits p}, circuit.polynomials[bits]? = some p → toLabelled.Represents bits.length bits p
  represented : ∀ {width p bits}, circuit.represented[(width, p)]? = some bits →
    toLabelled.Represents width bits p

namespace World

variable {m : Model} {α β : Type}

instance : Preorder (World m) where
  le W V := W.toLabelled.Before V.toLabelled
  le_refl W := .refl W.toLabelled
  le_trans _ _ _ := .trans

/-- A next step of a circuit: what its tables have more than before is true. New polynomials may speak of a
    new atom. -/
structure Step (W : World m) (L : Labelled) : Prop where
  before : W.toLabelled.Before L := by
    exact ⟨Nat.le_refl _, fun _ _ => rfl, Nat.le_refl _, fun _ _ => rfl⟩
  clauses : ∀ clause ∈ L.circuit.clauses, clause ∈ W.circuit.clauses ∨ W.Meets clause := by
    exact fun _ => .inl
  gates : ∀ {kind a b c out}, L.circuit.gates[(kind, a, b, c)]? = some out →
      W.circuit.gates[(kind, a, b, c)]? = some out ∨ W.Makes kind a b c out := by
    exact .inl
  makers : ∀ {out kind a b}, L.circuit.makers[out]? = some (kind, a, b) →
      W.circuit.makers[out]? = some (kind, a, b) ∨ ∃ c, W.Makes kind a b c out := by
    exact .inl
  inputs : ∀ {name bits}, (name, bits) ∈ L.circuit.inputs →
      (name, bits) ∈ W.circuit.inputs ∨ W.Shows bits.length bits (m name % 2 ^ bits.length) := by
    exact .inl
  polynomials : ∀ {bits p}, L.circuit.polynomials[bits]? = some p →
      W.circuit.polynomials[bits]? = some p ∨ L.Represents bits.length bits p := by
    exact .inl
  represented : ∀ {width p bits}, L.circuit.represented[(width, p)]? = some bits →
      W.circuit.represented[(width, p)]? = some bits ∨ L.Represents width bits p := by
    exact .inl

/-- The world after a step. -/
def Step.world {W : World m} {L : Labelled} (step : W.Step L) : World m :=
  { L with
    yes := step.before.bit W.yes
    clauses := fun clause hc => step.before.meets ((step.clauses clause hc).elim (W.clauses clause) id)
    gates := fun found => step.before.makes ((step.gates found).elim W.gates id)
    makers := fun found => ((step.makers found).elim W.makers id).imp fun _ => step.before.makes
    inputs := fun found => step.before.shows ((step.inputs found).elim W.inputs id)
    polynomials := fun found => (step.polynomials found).elim
      (fun old => step.before.represents (W.polynomials old)) id
    represented := fun found => (step.represented found).elim
      (fun old => step.before.represents (W.represented old)) id }

/-- What is built in a circuit has a property, in a circuit that has grown. -/
def Gives (W : World m) (action : Wiring α) (post : World m → α → Prop) : Prop :=
  ∃ V : World m, W ≤ V ∧ (action W.circuit).2 = V.circuit ∧ post V (action W.circuit).1

namespace Gives

variable {W : World m} {action : Wiring α} {post : World m → α → Prop}

theorem step {L : Labelled} (h : W.Step L) (ends : (action W.circuit).2 = L.circuit)
    (result : post h.world (action W.circuit).1) : W.Gives action post :=
  ⟨h.world, h.before, ends, result⟩

theorem pure {a : α} (h : post W a) : W.Gives (Pure.pure a) post := ⟨W, le_rfl, rfl, h⟩

theorem bind {next : α → Wiring β} {post' : World m → β → Prop} (first : W.Gives action post)
    (later : ∀ V a, W ≤ V → post V a → V.Gives (next a) post') : W.Gives (action >>= next) post' := by
  obtain ⟨V, grown, ends, result⟩ := first
  obtain ⟨U, grown', ends', result'⟩ := later V _ grown result
  rw [← ends] at ends' result'
  exact ⟨U, grown.trans grown', ends', result'⟩

theorem ite {p : Prop} [Decidable p] {other : Wiring α} (yes : p → W.Gives action post)
    (no : ¬ p → W.Gives other post) : W.Gives (if p then action else other) post := by
  split
  · exact yes ‹p›
  · exact no ‹¬ p›

theorem get {next : Circuit → Wiring β} {post : World m → β → Prop}
    (later : W.Gives (next W.circuit) post) : W.Gives (MonadState.get >>= next) post := later

theorem mono {post' : World m → α → Prop} (h : W.Gives action post)
    (weaker : ∀ V a, W ≤ V → post V a → post' V a) : W.Gives action post' :=
  h.imp fun V outcome => ⟨outcome.1, outcome.2.1, weaker V _ outcome.1 outcome.2.2⟩

theorem map {f : α → β} {post' : World m → β → Prop} (h : W.Gives action post)
    (result : ∀ V a, W ≤ V → post V a → post' V (f a)) :
    W.Gives (action >>= fun a => Pure.pure (f a)) post' :=
  h.bind fun V a grown known => .pure (result V a grown known)

end Gives

end World

end PathSearch.Smt
