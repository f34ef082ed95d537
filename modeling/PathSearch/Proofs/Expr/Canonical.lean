import Mathlib.Data.Finset.Card
import PathSearch.Expr.Canonical
import PathSearch.Proofs.Bytes
import PathSearch.Proofs.DepthFirst
import PathSearch.Proofs.Expr.Occurrence

/-! # The canonical byte form tells expressions apart

The records of the parts of an expression follow one another without separators, and each of them
says where it ends. As the parts a record refers to are written before it, the records can be read
off one by one, and the last one is that of the expression itself.
-/

namespace PathSearch.Expr

/-- The position of an expression among those written. -/
def place (written : List Expr) (x : Expr) : Nat :=
  if x ∈ written then written.idxOf x else 0xffffffff

/-- The records of further parts behind those written. -/
def recordsFrom (written : List Expr) : List Expr → List UInt8
  | [] => []
  | x :: rest => record (place written) x ++ recordsFrom (written ++ [x]) rest

theorem place_concat {written : List Expr} {x : Expr} (new : x ∉ written) (y : Expr) :
    place (written ++ [x]) y = if x = y then written.length else place written y := by
  unfold place
  by_cases same : x = y
  · subst same
    rw [if_pos List.mem_concat_self, List.idxOf_append, if_neg new, List.idxOf_cons_self, if_pos rfl,
      Nat.zero_add]
  · have listed : y ∈ written ++ [x] ↔ y ∈ written := by
      rw [List.mem_append, List.mem_singleton]
      exact or_iff_left fun h => same h.symm
    rw [if_neg same]
    by_cases old : y ∈ written
    · rw [if_pos (listed.mpr old), if_pos old, List.idxOf_append, if_pos old]
    · rw [if_neg (mt listed.mp old), if_neg old]

theorem place_lt {written : List Expr} {x : Expr} (hx : x ∈ written) :
    place written x < written.length := by
  rw [place, if_pos hx]
  exact List.idxOf_lt_length_of_mem hx

theorem place_inj {written : List Expr} {x y : Expr} (hx : x ∈ written) (hy : y ∈ written)
    (same : place written x = place written y) : x = y := by
  rw [place, place, if_pos hx, if_pos hy] at same
  exact (List.idxOf_inj hx).mp same

section Writing

/-- What has been written, as the walk keeps it. -/
structure Holds (w : Written) (written : List Expr) : Prop where
  place : ∀ x, w.1.getD x 0xffffffff = place written x
  contains : ∀ x, w.1.contains x = true ↔ x ∈ written
  size : w.1.size = written.length

theorem Holds.empty : Holds (∅, []) [] := by
  refine ⟨fun x => ?_, fun x => ?_, rfl⟩
  · simp [Expr.place]
  · simp

theorem Holds.write {w : Written} {written : List Expr} (h : Holds w written) {x : Expr}
    (new : x ∉ written) : Holds (writeRecord w x) (written ++ [x]) := by
  have unknown : x ∉ w.1 := fun known => new ((h.contains x).mp known)
  refine ⟨fun y => ?_, fun y => ?_, ?_⟩
  · rw [writeRecord, Std.HashMap.getD_insert, place_concat new, h.size, h.place]
    simp only [beq_iff_eq]
  · simp only [writeRecord, Std.HashMap.contains_insert, Bool.or_eq_true, beq_iff_eq, h.contains,
      List.mem_append, List.mem_singleton]
    rw [or_comm, eq_comm]
  · simp only [writeRecord, Std.HashMap.size_insert, List.length_append, List.length_singleton,
      if_neg unknown, h.size]

theorem writeRecord_records {w : Written} {written : List Expr} (h : Holds w written) (x : Expr) :
    (writeRecord w x).2 = record (Expr.place written) x :: w.2 := by
  have same : (fun x => w.1.getD x 0xffffffff) = Expr.place written := funext h.place
  rw [writeRecord, same]

theorem foldl_writeRecord {w : Written} {written list : List Expr} (h : Holds w written)
    (once : (written ++ list).Nodup) :
    Holds (list.foldl writeRecord w) (written ++ list) ∧
    (list.foldl writeRecord w).2.reverse.flatten =
      w.2.reverse.flatten ++ recordsFrom written list := by
  induction list generalizing w written with
  | nil => simp [recordsFrom, h]
  | cons x rest ih =>
      have split : written ++ x :: rest = written ++ [x] ++ rest := by rw [List.append_assoc]; rfl
      have new : x ∉ written := fun old =>
        (List.nodup_append.mp once).2.2 x old x (.head _) rfl
      rw [split] at once ⊢
      obtain ⟨holds, records⟩ := ih (h.write new) once
      refine ⟨holds, ?_⟩
      rw [List.foldl_cons, records, writeRecord_records h, recordsFrom, List.reverse_cons,
        List.flatten_append, List.flatten_singleton, List.append_assoc]

theorem canonical_eq_foldl (e : Expr) : e.canonical =
    ((graph.visit (fun _ => false) e []).foldl writeRecord (∅, [])).2.reverse.flatten := by
  rw [canonical, ← Array.foldl_toList, postOrder, shareParts_eq, Graph.postOrder,
    Graph.toList_postOrderWhere]

theorem canonical_eq (e : Expr) :
    e.canonical = recordsFrom [] (graph.visit (fun _ => false) e []) := by
  have once : ([] ++ graph.visit (fun _ => false) e []).Nodup := Graph.nodup_visit .nil
  rw [canonical_eq_foldl, (foldl_writeRecord .empty once).2]
  rfl

end Writing

/-- What a record can be read back from: the parts it refers to are written, and its fields fit. -/
structure Recordable (written : List Expr) (e : Expr) : Prop where
  wellFormed : e.WellFormed
  short : ∀ name, e.Mentions name → name.utf8ByteSize < 2 ^ 32
  operands : ∀ x ∈ e.operands, x ∈ written
  room : written.length ≤ 2 ^ 32

section Reading

variable {written : List Expr} {a b x y : Expr} {s t : List UInt8}

theorem toLE_append_inj {n m k : Nat} (hm : m < 256 ^ n) (hk : k < 256 ^ n)
    (same : Bytes.toLE n m ++ s = Bytes.toLE n k ++ t) : m = k ∧ s = t := by
  obtain ⟨number, rest⟩ := List.append_inj same (by rw [Bytes.length_toLE, Bytes.length_toLE])
  exact ⟨(Bytes.toLE_inj hm hk).mp number, rest⟩

theorem ofNat_inj {m k : Nat} (hm : m < 256) (hk : k < 256) (same : UInt8.ofNat m = UInt8.ofNat k) :
    m = k := by
  have same := congrArg UInt8.toNat same
  rwa [UInt8.toNat_ofNat_of_lt' hm, UInt8.toNat_ofNat_of_lt' hk] at same

theorem place_append_inj (hx : x ∈ written) (hy : y ∈ written) (room : written.length ≤ 2 ^ 32)
    (same : Bytes.toLE 4 (place written x) ++ s = Bytes.toLE 4 (place written y) ++ t) :
    x = y ∧ s = t := by
  obtain ⟨number, rest⟩ := toLE_append_inj (Nat.lt_of_lt_of_le (place_lt hx) room)
    (Nat.lt_of_lt_of_le (place_lt hy) room) same
  exact ⟨place_inj hx hy number, rest⟩

/-- The positions of as many parts on both sides. -/
theorem places_append_inj {xs ys : List Expr} (hx : ∀ x ∈ xs, x ∈ written)
    (hy : ∀ y ∈ ys, y ∈ written) (room : written.length ≤ 2 ^ 32) (length : xs.length = ys.length)
    (same : xs.flatMap (fun x => Bytes.toLE 4 (place written x)) ++ s =
      ys.flatMap (fun y => Bytes.toLE 4 (place written y)) ++ t) : xs = ys ∧ s = t := by
  induction xs generalizing ys with
  | nil =>
      obtain rfl := List.eq_nil_of_length_eq_zero length.symm
      exact ⟨rfl, same⟩
  | cons x xs ih =>
      cases ys with
      | nil => cases length
      | cons y ys =>
          rw [List.flatMap_cons, List.flatMap_cons, List.append_assoc, List.append_assoc] at same
          obtain ⟨first, same⟩ := place_append_inj (hx x (.head _)) (hy y (.head _)) room same
          obtain ⟨others, rest⟩ := ih (fun x h => hx x (.tail _ h)) (fun y h => hy y (.tail _ h))
            (Nat.succ.inj length) same
          exact ⟨by rw [first, others], rest⟩

theorem opIndex_inj {op op' : Op} (same : UInt8.ofNat op.index = UInt8.ofNat op'.index) :
    op = op' := by
  have small (op : Op) : op.index < 256 := by cases op <;> decide
  have listed (op : Op) : op ∈ Op.all := by cases op <;> decide
  exact (List.idxOf_inj (listed op)).mp (ofNat_inj (small op) (small op') same)

/-- A text behind its length. -/
theorem text_append_inj {m n : String} (hm : m.utf8ByteSize < 2 ^ 32) (hn : n.utf8ByteSize < 2 ^ 32)
    (same : Bytes.toLE 4 m.utf8ByteSize ++ m.toUTF8.toList ++ s =
      Bytes.toLE 4 n.utf8ByteSize ++ n.toUTF8.toList ++ t) : m = n ∧ s = t := by
  rw [List.append_assoc, List.append_assoc] at same
  obtain ⟨length, same⟩ := toLE_append_inj hm hn same
  obtain ⟨text, rest⟩ := List.append_inj same (by rw [Bytes.length_utf8, Bytes.length_utf8, length])
  exact ⟨Bytes.utf8_inj text, rest⟩

theorem mentions_var (name : String) (bits : Nat) : (var name bits).Mentions name :=
  ⟨bits, .head _⟩

/-- A record tells what it is the record of and where it ends. -/
theorem record_append_inj (ha : Recordable written a) (hb : Recordable written b)
    (same : record (place written) a ++ s = record (place written) b ++ t) : a = b ∧ s = t := by
  obtain ⟨tags, same⟩ := List.cons.inj same
  obtain ⟨widths, fields⟩ := List.cons.inj same
  have widths : a.width = b.width := by
    have := ha.wellFormed.width_le
    have := hb.wellFormed.width_le
    exact ofNat_inj (by omega) (by omega) widths
  have part {x y : Expr} (hx : x ∈ a.operands) (hy : y ∈ b.operands) {s t : List UInt8}
      (same : Bytes.toLE 4 (place written x) ++ s = Bytes.toLE 4 (place written y) ++ t) :
      x = y ∧ s = t := place_append_inj (ha.operands x hx) (hb.operands y hy) ha.room same
  have parts := places_append_inj ha.operands hb.operands ha.room (s := s) (t := t)
  cases a with
  | const v w =>
      cases b with
      | const v' w' =>
          obtain ⟨number, rest⟩ := toLE_append_inj v.toNat_lt v'.toNat_lt fields
          obtain rfl := UInt64.toNat_inj.mp number
          obtain rfl : w = w' := widths
          exact ⟨rfl, rest⟩
      | _ => cases tags
  | var n w =>
      cases b with
      | var n' w' =>
          have small := ha.short n (mentions_var n w)
          have small' := hb.short n' (mentions_var n' w')
          obtain ⟨text, rest⟩ := text_append_inj small small' fields
          obtain rfl : w = w' := widths
          exact ⟨congrArg (var · w) text, rest⟩
      | _ => cases tags
  | unary op x =>
      cases b with
      | unary op' x' =>
          obtain ⟨number, fields'⟩ := List.cons.inj fields
          obtain ⟨operand, rest⟩ := part (.head _) (.head _) fields'
          exact ⟨by rw [opIndex_inj number, operand], rest⟩
      | _ => cases tags
  | binary op l r =>
      cases b with
      | binary op' l' r' =>
          obtain ⟨number, fields'⟩ := List.cons.inj fields
          simp only [List.append_eq, List.append_assoc] at fields'
          obtain ⟨left, fields''⟩ := part (.head _) (.head _) fields'
          obtain ⟨right, rest⟩ := part (.tail _ (.head _)) (.tail _ (.head _)) fields''
          exact ⟨by rw [opIndex_inj number, left, right], rest⟩
      | _ => cases tags
  | ite c y n =>
      cases b with
      | ite c' y' n' =>
          obtain ⟨same, rest⟩ := parts rfl fields
          cases same
          exact ⟨rfl, rest⟩
      | _ => cases tags
  | extract high low x =>
      cases b with
      | extract high' low' x' =>
          obtain ⟨ordered, inside, hx⟩ := ha.wellFormed
          obtain ⟨ordered', inside', hx'⟩ := hb.wellFormed
          have := hx.width_le
          have := hx'.width_le
          obtain ⟨upper, fields'⟩ := List.cons.inj fields
          obtain ⟨lower, fields''⟩ := List.cons.inj fields'
          obtain ⟨operand, rest⟩ := part (.head _) (.head _) fields''
          have upper : high = high' := ofNat_inj (by omega) (by omega) upper
          have lower : low = low' := ofNat_inj (by omega) (by omega) lower
          exact ⟨by rw [upper, lower, operand], rest⟩
      | _ => cases tags
  | zext x w =>
      cases b with
      | zext x' w' =>
          obtain ⟨same, rest⟩ := parts rfl fields
          obtain rfl : w = w' := widths
          cases same
          exact ⟨rfl, rest⟩
      | _ => cases tags
  | sext x w =>
      cases b with
      | sext x' w' =>
          obtain ⟨same, rest⟩ := parts rfl fields
          obtain rfl : w = w' := widths
          cases same
          exact ⟨rfl, rest⟩
      | _ => cases tags
  | concat h l =>
      cases b with
      | concat h' l' =>
          obtain ⟨same, rest⟩ := parts rfl fields
          cases same
          exact ⟨rfl, rest⟩
      | _ => cases tags

/-- Equal records are those of equal parts. -/
theorem recordsFrom_inj {xs ys : List Expr}
    (hx : ∀ front x rest, xs = front ++ x :: rest → Recordable (written ++ front) x)
    (hy : ∀ front y rest, ys = front ++ y :: rest → Recordable (written ++ front) y)
    (same : recordsFrom written xs = recordsFrom written ys) : xs = ys := by
  induction xs generalizing ys written with
  | nil =>
      cases ys with
      | nil => rfl
      | cons y ys => cases same
  | cons x xs ih =>
      cases ys with
      | nil => cases same
      | cons y ys =>
          have firstX : Recordable written x := by simpa using hx [] x xs rfl
          have firstY : Recordable written y := by simpa using hy [] y ys rfl
          obtain ⟨rfl, rest⟩ := record_append_inj firstX firstY same
          refine congrArg (x :: ·) (ih (fun front z later split => ?_) (fun front z later split => ?_) rest)
          · rw [List.append_assoc]
            exact hx (x :: front) z later (congrArg (x :: ·) split)
          · rw [List.append_assoc]
            exact hy (x :: front) z later (congrArg (x :: ·) split)

end Reading

/-- The parts of an expression and itself, as often as they occur. -/
def subterms : Expr → List Expr
  | .const v w => [.const v w]
  | .var n w => [.var n w]
  | .unary op x => .unary op x :: x.subterms
  | .binary op l r => .binary op l r :: (l.subterms ++ r.subterms)
  | .ite c y n => .ite c y n :: (c.subterms ++ (y.subterms ++ n.subterms))
  | .extract high low x => .extract high low x :: x.subterms
  | .zext x w => .zext x w :: x.subterms
  | .sext x w => .sext x w :: x.subterms
  | .concat h l => .concat h l :: (h.subterms ++ l.subterms)

theorem mem_subterms_iff {e y : Expr} :
    y ∈ e.subterms ↔ y = e ∨ ∃ x ∈ e.operands, y ∈ x.subterms := by
  cases e <;> simp [subterms, operands]

theorem mem_subterms_of_operand {e x y : Expr} (hx : x ∈ e.subterms) (hy : y ∈ x.operands) :
    y ∈ e.subterms := by
  rcases mem_subterms_iff.mp hx with rfl | ⟨z, hz, hx⟩
  · exact mem_subterms_iff.mpr (.inr ⟨y, hy, mem_subterms_iff.mpr (.inl rfl)⟩)
  · exact mem_subterms_iff.mpr (.inr ⟨z, hz, mem_subterms_of_operand hx hy⟩)
termination_by e
decreasing_by exact sizeOf_lt_of_mem_operands hz

/-- What the canonical form is made for: a well-formed expression, as the constructors build it, with
    names and a number of distinct parts that fit four bytes. -/
structure Encodable (e : Expr) : Prop where
  wellFormed : e.WellFormed
  short : ∀ name, e.Mentions name → name.utf8ByteSize < 2 ^ 32
  few : e.subterms.toFinset.card < 2 ^ 32

section Parts

variable {e : Expr}

/-- What holds of an expression and passes on to operands holds of every part that is listed. -/
theorem forall_mem_parts {P : Expr → Prop} (closed : ∀ x, P x → ∀ y ∈ x.operands, P y) (h : P e) :
    ∀ x ∈ graph.visit (fun _ => false) e [], P x := by
  rw [← Graph.toList_postOrderWhere]
  exact graph.forall_mem_postOrderWhere closed h

theorem length_parts_le :
    (graph.visit (fun _ => false) e []).length ≤ e.subterms.toFinset.card := by
  have once : (graph.visit (fun _ => false) e []).Nodup := Graph.nodup_visit .nil
  rw [← List.toFinset_card_of_nodup once]
  refine Finset.card_le_card fun x hx => ?_
  rw [List.mem_toFinset] at hx ⊢
  exact forall_mem_parts (fun x hx y hy => mem_subterms_of_operand hx hy)
    (mem_subterms_iff.mpr (.inl rfl)) x hx

theorem Encodable.recordable (h : e.Encodable) (front : List Expr) (x : Expr) (rest : List Expr)
    (split : graph.visit (fun _ => false) e [] = front ++ x :: rest) : Recordable front x := by
  have listed : x ∈ graph.visit (fun _ => false) e [] := split ▸ by simp
  have first := graph.operandsFirst_postOrderWhere (fun _ => false) e
  rw [Graph.toList_postOrderWhere] at first
  refine ⟨?_, ?_, fun y hy => ?_, ?_⟩
  · exact forall_mem_parts (fun _ wf _ hy => wf.of_mem_operands hy) h.wellFormed x listed
  · refine forall_mem_parts (P := fun x => ∀ name, x.Mentions name → name.utf8ByteSize < 2 ^ 32)
      (fun _ short _ hy name mentions => short name (mentions.of_mem_operands hy)) h.short x listed
  · exact (first.in_front split y hy).resolve_left Bool.false_ne_true
  · have bound := length_parts_le (e := e)
    have few := h.few
    rw [split, List.length_append] at bound
    omega

end Parts

/-- Expressions with the same canonical form are equal. -/
theorem canonical_inj {a b : Expr} (ha : a.Encodable) (hb : b.Encodable)
    (same : a.canonical = b.canonical) : a = b := by
  rw [canonical_eq, canonical_eq] at same
  have parts := recordsFrom_inj ha.recordable hb.recordable same
  rw [Graph.visit_new rfl List.not_mem_nil, Graph.visit_new rfl List.not_mem_nil] at parts
  exact (List.cons.inj (List.append_inj' parts rfl).2).1

theorem canonical_var (name : String) (bits : Nat) : (var name bits).canonical =
    1 :: UInt8.ofNat bits :: (Bytes.toLE 4 name.utf8ByteSize ++ name.toUTF8.toList) := by
  rw [canonical_eq, Graph.visit_new rfl List.not_mem_nil]
  exact List.append_nil _

theorem Encodable.var {name : String} {bits : Nat} (positive : 0 < bits) (atMost : bits ≤ 64)
    (short : name.utf8ByteSize < 2 ^ 32) : (var name bits).Encodable := by
  refine ⟨⟨positive, atMost⟩, ?_, ?_⟩
  · rintro other ⟨_, occurs⟩
    cases List.mem_singleton.mp occurs
    exact short
  · have single : (Expr.var name bits).subterms.length = 1 := rfl
    have card := (Expr.var name bits).subterms.toFinset_card_le
    omega

end PathSearch.Expr
