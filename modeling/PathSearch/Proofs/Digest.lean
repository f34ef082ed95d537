import PathSearch.Proofs.Expr.Sharing
import PathSearch.State.Constraints

/-! # The digest of a sequence of constraints tells the sequence

Each constraint is hashed together with the digest of those before it, in a byte string that can be
taken apart again. So two sequences with one digest are equal, unless two different byte strings
that were hashed on the way have one SHA-1 digest.
-/

namespace PathSearch

universe u w

namespace Digest

theorem wordBytes_inj {v w : UInt32} (same : wordBytes v = wordBytes w) : v = w := by
  have numbers := congrArg (List.map UInt8.toNat) same
  simp [wordBytes, Nat.shiftRight_eq_div_pow] at numbers
  apply UInt32.toNat_inj.mp
  have := v.toNat_lt
  have := w.toNat_lt
  omega

theorem length_wordBytes (w : UInt32) : (wordBytes w).length = 4 := rfl

theorem flatMap_wordBytes_inj {vs ws : List UInt32} (length : vs.length = ws.length)
    (same : vs.flatMap wordBytes = ws.flatMap wordBytes) : vs = ws := by
  induction vs generalizing ws with
  | nil => exact (List.eq_nil_of_length_eq_zero length.symm).symm
  | cons v vs ih =>
      cases ws with
      | nil => cases length
      | cons w ws =>
          rw [List.flatMap_cons, List.flatMap_cons] at same
          obtain ⟨first, others⟩ :=
            List.append_inj same (by rw [length_wordBytes, length_wordBytes])
          rw [wordBytes_inj first, ih (Nat.succ.inj length) others]

theorem length_bytes (d : Digest) : d.bytes.length = 20 := rfl

/-- A digest is known from its bytes. -/
theorem bytes_inj {d e : Digest} (same : d.bytes = e.bytes) : d = e := by
  have words : [d.a, d.b, d.c, d.d, d.e] = [e.a, e.b, e.c, e.d, e.e] :=
    flatMap_wordBytes_inj rfl same
  cases d
  cases e
  cases words
  rfl

/-- The byte string that is hashed for the empty sequence. -/
def seed : List UInt8 :=
  ['s', 'y', 'm', 's', 'c', 'o', 'p', 'e', '.', 'c', 'o', 'n', 's', 't', 'r', 'a', 'i', 'n', 't',
    's'].map fun c => UInt8.ofNat c.toNat

theorem empty_eq : Digest.empty = sha1 seed := by decide +kernel

/-- The byte string that is hashed for one more constraint. -/
def frame (d : Digest) (c : Expr) : List UInt8 :=
  d.bytes ++ Bytes.toLE 8 c.canonical.length ++ c.canonical

theorem ofSequence_concat (before : List Expr) (c : Expr) :
    ofSequence (before ++ [c]) = sha1 (frame (ofSequence before) c) := by
  rw [ofSequence, List.foldl_append]
  rfl

theorem frame_inj {d e : Digest} {a b : Expr} (ha : a.Encodable) (hb : b.Encodable)
    (same : frame d a = frame e b) : d = e ∧ a = b := by
  rw [frame, frame] at same
  obtain ⟨front, forms⟩ := List.append_inj same (by simp [length_bytes])
  obtain ⟨digests, -⟩ := List.append_inj front (by rw [length_bytes, length_bytes])
  exact ⟨bytes_inj digests, Expr.canonical_inj ha hb forms⟩

theorem seed_ne_frame (d : Digest) (c : Expr) : seed ≠ frame d c := by
  intro same
  have length := congrArg List.length same
  have twenty : seed.length = 20 := rfl
  rw [twenty, frame, List.length_append, List.length_append, length_bytes, Bytes.length_toLE] at length
  omega

/-- The byte strings that are hashed on the way to the digest of a sequence. -/
inductive Hashed (items : List Expr) : List UInt8 → Prop where
  | seed : Hashed items seed
  | frame {before : List Expr} {c : Expr} (here : before ++ [c] <+: items) :
      Hashed items (frame (ofSequence before) c)

theorem Hashed.mono {before items : List Expr} {bytes : List UInt8} (h : Hashed before bytes)
    (starts : before <+: items) : Hashed items bytes := by
  cases h with
  | seed => exact .seed
  | frame here => exact .frame (here.trans starts)

/-- No two of the byte strings that are hashed for one sequence or the other have one digest. -/
def CollisionFree (as bs : List Expr) : Prop :=
  ∀ s t, (Hashed as s ∨ Hashed bs s) → (Hashed as t ∨ Hashed bs t) → sha1 s = sha1 t → s = t

theorem CollisionFree.mono {as bs as' bs' : List Expr} (free : CollisionFree as' bs')
    (ha : as <+: as') (hb : bs <+: bs') : CollisionFree as bs := by
  intro s t hs ht
  exact free s t (hs.imp (·.mono ha) (·.mono hb)) (ht.imp (·.mono ha) (·.mono hb))

theorem ofSequence_nil : ofSequence [] = sha1 seed := empty_eq

/-- A sequence that is not empty has another digest than the empty one. -/
theorem ofSequence_concat_ne_nil {as : List Expr} {a : Expr} (free : CollisionFree (as ++ [a]) []) :
    ofSequence (as ++ [a]) ≠ ofSequence [] := by
  intro same
  rw [ofSequence_concat, ofSequence_nil] at same
  exact seed_ne_frame _ _ (free _ _ (.inl (.frame List.prefix_rfl)) (.inr .seed) same).symm

theorem CollisionFree.symm {as bs : List Expr} (free : CollisionFree as bs) : CollisionFree bs as :=
  fun s t hs ht => free s t hs.symm ht.symm

/-- The induction takes the last constraint off both sequences: its frame gives it away, and with it
    the digest of what stands before it. -/
theorem ofSequence_inj {as bs : List Expr} (ha : ∀ c ∈ as, c.Encodable) (hb : ∀ c ∈ bs, c.Encodable)
    (free : CollisionFree as bs) (same : ofSequence as = ofSequence bs) : as = bs := by
  induction as using List.reverseRecOn generalizing bs with
  | nil =>
      cases bs using List.reverseRecOn with
      | nil => rfl
      | append_singleton bs b _ => exact absurd same.symm (ofSequence_concat_ne_nil free.symm)
  | append_singleton as a ih =>
      cases bs using List.reverseRecOn with
      | nil => exact absurd same (ofSequence_concat_ne_nil free)
      | append_singleton bs b _ =>
          rw [ofSequence_concat, ofSequence_concat] at same
          have frames := free _ _ (.inl (.frame List.prefix_rfl)) (.inr (.frame List.prefix_rfl)) same
          obtain ⟨before, last⟩ := frame_inj (ha a (by simp)) (hb b (by simp)) frames
          have earlier := ih (fun c hc => ha c (List.mem_append_left _ hc))
            (fun c hc => hb c (List.mem_append_left _ hc))
            (free.mono (List.prefix_append _ _) (List.prefix_append _ _)) before
          rw [earlier, last]

theorem eq_of_hashed_nil {bytes : List UInt8} (h : Hashed [] bytes) : bytes = seed := by
  cases h with
  | seed => rfl
  | frame here => exact absurd (List.prefix_nil.mp here) (by simp)

theorem eq_of_hashed_singleton {c : Expr} {bytes : List UInt8} (h : Hashed [c] bytes) :
    bytes = seed ∨ bytes = frame (ofSequence []) c := by
  cases h with
  | seed => exact .inl rfl
  | @frame before d here =>
      obtain ⟨rest, split⟩ := here
      obtain ⟨rfl, -, rfl⟩ : before = [] ∧ rest = [] ∧ d = c := by
        cases before <;> simp_all
      exact .inr rfl

end Digest

/-- The canonical form tells expressions apart and does not depend on how they are kept in memory, and
    the digest tells sequences of constraints apart where SHA-1 has no collision among what is hashed
    for them. -/
theorem Constraints.digest_identifies {ν : Type u} {μ : Type w} [BEq ν] [LawfulBEq ν] [Hashable ν]
    [BEq μ] [LawfulBEq μ] [Hashable μ] (g : Heap ν) (h : Heap μ) :
    (∀ v w, (g.shape v).Encodable → (h.shape w).Encodable →
      (g.canonical v = h.canonical w ↔ g.shape v = h.shape w)) ∧
    (∀ v, g.canonical v = (g.shape v).canonical) ∧
    ∀ cs ds : Constraints, (∀ c ∈ cs.items, c.Encodable) → (∀ d ∈ ds.items, d.Encodable) →
      Digest.CollisionFree cs.items ds.items → (cs.digest = ds.digest ↔ cs.items = ds.items) := by
  refine ⟨fun v w hv hw => ?_, g.canonical_eq, fun cs ds hcs hds free => ?_⟩
  · rw [g.canonical_eq, h.canonical_eq]
    exact ⟨Expr.canonical_inj hv hw, congrArg Expr.canonical⟩
  · rw [cs.digest_eq, ds.digest_eq]
    exact ⟨Digest.ofSequence_inj hcs hds free, congrArg Digest.ofSequence⟩

/-- The square of a sum in memory, with one node for the sum or with two. -/
def Heap.square (once : Bool) : Heap Nat where
  operands
    | 2 => [0, 1]
    | 5 => [3, 4]
    | 6 => [2, if once then 2 else 5]
    | _ => []
  acyclic := by
    refine Subrelation.wf (fun {u v} hu => ?_) Nat.lt_wfRel.wf
    change u < v
    split at hu
    all_goals simp only [List.mem_cons, List.not_mem_nil, or_false] at hu
    case h_3 => cases once <;> simp only [↓reduceIte, Bool.false_eq_true] at hu <;> omega
    all_goals omega
  shape
    | 0 | 3 => .var "x" 8
    | 1 | 4 => .var "y" 8
    | 2 | 5 => .binary .add (.var "x" 8) (.var "y" 8)
    | 6 =>
        let sum : Expr := .binary .add (.var "x" 8) (.var "y" 8)
        .binary .mul sum sum
    | _ => .const 0 8
  operands_shape v := by
    match v with
    | 0 | 1 | 2 | 3 | 4 | 5 => rfl
    | 6 => cases once <;> rfl
    | _ + 7 => rfl

/-- The square has one form for both, and one constraint has another digest than none. -/
theorem Constraints.digest_identifies_square :
    (Heap.square true).canonical 6 = (Heap.square false).canonical 6 ∧
      ({} : Constraints).digest ≠ (({} : Constraints).append (.var "x" 1)).digest := by
  obtain ⟨forms, -, digests⟩ := digest_identifies (Heap.square true) (Heap.square false)
  have square : ((Heap.square true).shape 6).Encodable := by
    refine ⟨?_, ?_, ?_⟩
    · simp [Heap.square, Expr.WellFormed, Expr.width, Op.isUnary, Op.isComparison]
    · rintro name ⟨bits, occurs⟩
      have : name = "x" ∨ name = "y" := by
        simp [Heap.square, Expr.occurrences] at occurs
        grind
      have one : "x".utf8ByteSize = 1 ∧ "y".utf8ByteSize = 1 := ⟨rfl, rfl⟩
      rcases this with rfl | rfl <;> omega
    · refine Nat.lt_of_le_of_lt (List.toFinset_card_le _) ?_
      decide
  have short : "x".utf8ByteSize = 1 := rfl
  have flag : (Expr.var "x" 1).Encodable := .var (by decide) (by decide) (by omega)
  have form : (Expr.var "x" 1).canonical = [1, 1, 1, 0, 0, 0, 120] := by
    rw [Expr.canonical_var]
    decide +kernel
  have differ : Digest.sha1 Digest.seed ≠
      Digest.sha1 (Digest.frame (Digest.ofSequence []) (.var "x" 1)) := by
    rw [← Digest.empty_eq, Digest.frame, form]
    decide +kernel
  have free : Digest.CollisionFree [] [Expr.var "x" 1] := by
    have cases (s) (hs : Digest.Hashed [] s ∨ Digest.Hashed [Expr.var "x" 1] s) :
        s = Digest.seed ∨ s = Digest.frame (Digest.ofSequence []) (.var "x" 1) :=
      hs.elim (fun h => .inl (Digest.eq_of_hashed_nil h)) Digest.eq_of_hashed_singleton
    intro s t hs ht same
    rcases cases s hs with rfl | rfl <;> rcases cases t ht with rfl | rfl
    · rfl
    · exact absurd same differ
    · exact absurd same.symm differ
    · rfl
  refine ⟨(forms 6 6 square square).mpr rfl, fun same => ?_⟩
  have equal := (digests {} (({} : Constraints).append (.var "x" 1)) (List.forall_mem_nil _)
    (List.forall_mem_singleton.mpr flag) free).mp same
  cases equal

end PathSearch
