import PathSearch.Proofs.Search.Global

/-! # Putting the queue together again

To merge the active states, the queue is split by address and then filled again, one group after the
other. A group comes back as one state with the next selector, or it comes back as it was. So every
state of the new queue is accounted for by one group, and every group by a part of the new queue.
-/

namespace PathSearch

namespace Merge

variable {selector : String} {states : List State} {n n' k : Nat}

/-- Whether merging succeeds does not depend on the identity that the state gets. -/
theorem merge_again {m : State} (merged : (merge states selector).run n = (.ok m, n')) (k : Nat) :
    ∃ m' k', (merge states selector).run k = (.ok m', k') := by
  rcases merge_cases merged with rfl | ⟨first, others, several, rfl⟩
  · exact ⟨m, k, rfl⟩
  · obtain ⟨compatible, -⟩ := merge_inv several merged
    obtain ⟨gs, cs, rs, mem, guarded, conditions, chosenRegisters, chosenMemory, -⟩ :=
      merge_parts several merged
    exact ⟨_, _, run_merge several compatible guarded conditions chosenRegisters chosenMemory k⟩

/-- Merging is refused, whatever identity the state would get. -/
def Refuses (states : List State) (selector : String) : Prop :=
  ∀ n, ∃ e n', (merge states selector).run n = (.error e, n')

theorem refuses_of_run {e : Error} (failed : (merge states selector).run n = (.error e, n')) :
    Refuses states selector := by
  intro k
  cases ran : (merge states selector).run k with
  | mk result k' =>
      cases result with
      | error e => exact ⟨e, k', rfl⟩
      | ok m =>
          obtain ⟨m', n'', again⟩ := merge_again ran n
          rw [failed] at again
          cases again

end Merge

namespace Explorer

/-- The groups as they are found: the first state that is left and all others at its address. -/
inductive Grouped : List State → List (List State) → Prop where
  | nil : Grouped [] []
  | cons {s : State} {rest : List State} {groups : List (List State)}
      (later : Grouped (rest.filter fun t => !t.ip == s.ip) groups) :
      Grouped (s :: rest) ((s :: rest.filter (·.ip == s.ip)) :: groups)

section Groups

variable {s : State} {states rest : List State} {groups : List (List State)}

theorem filter_together :
    (s :: rest).filter (·.ip == s.ip) = s :: rest.filter (·.ip == s.ip) :=
  List.filter_cons_of_pos (beq_self_eq_true s.ip)

/-- The group at an address does not change when the states at another one are taken out. -/
theorem filter_apart {ip : Word} (other : ip ≠ s.ip) :
    (s :: rest).filter (·.ip == ip) =
      (rest.filter fun t => !t.ip == s.ip).filter (·.ip == ip) := by
  have elsewhere : ¬ (s.ip == ip) = true := fun here => other (beq_iff_eq.mp here).symm
  have passed : (s :: rest).filter (·.ip == ip) = rest.filter (·.ip == ip) :=
    List.filter_cons_of_neg elsewhere
  rw [passed, List.filter_filter]
  apply List.filter_congr
  intro t _
  by_cases here : t.ip = ip
  · simp [here, other]
  · simp [here]

theorem groups_cons (s : State) (rest : List State) :
    Explorer.groups (s :: rest) = (s :: rest.filter (·.ip == s.ip)) ::
      Explorer.groups (rest.filter fun t => !t.ip == s.ip) := by
  have addresses : (rest.map (·.ip)).filter (fun ip => !ip == s.ip) =
      (rest.filter fun t => !t.ip == s.ip).map (·.ip) := List.filter_map
  rw [Explorer.groups, List.map_cons, List.eraseDups_cons, List.map_cons, addresses,
    filter_together, Explorer.groups]
  congr 1
  apply List.map_congr_left
  intro ip hip
  obtain ⟨t, ht, rfl⟩ := List.mem_map.mp (List.mem_eraseDups.mp hip)
  have other := (List.mem_filter.mp ht).2
  exact filter_apart (by simpa using other)

theorem grouped_groups (states : List State) : Grouped states (Explorer.groups states) := by
  match states with
  | [] => exact .nil
  | s :: rest =>
      rw [groups_cons]
      exact .cons (grouped_groups _)
termination_by states.length
decreasing_by
  exact Nat.lt_succ_of_le (List.length_filter_le _ _)

/-- A list of states by address. Every group has all states at one address, in their order, and the
    groups come in the order of their first members. -/
structure Grouping (states : List State) (groups : List (List State)) : Prop where
  perm : groups.flatten.Perm states
  whole : ∀ group ∈ groups, ∃ s ∈ states, group = states.filter (·.ip == s.ip)
  order : (groups.filterMap List.head?).Sublist states
  distinct : (groups.filterMap List.head?).Pairwise (·.ip ≠ ·.ip)

theorem Grouped.grouping (grouped : Grouped states groups) : Grouping states groups := by
  induction grouped with
  | nil => exact ⟨.refl _, List.forall_mem_nil _, .slnil, .nil⟩
  | @cons s rest groups later ih =>
      have away {t : State} (ht : t ∈ rest.filter fun t => !t.ip == s.ip) : t.ip ≠ s.ip := by
        simpa using (List.mem_filter.mp ht).2
      constructor
      · calc (s :: rest.filter (·.ip == s.ip)) ++ groups.flatten
          _ |>.Perm ((s :: rest.filter (·.ip == s.ip)) ++ rest.filter fun t => !t.ip == s.ip) :=
            ih.perm.append_left _
          _ |>.Perm (s :: rest) := (List.filter_append_perm _ rest).cons s
      · refine List.forall_mem_cons.mpr ⟨⟨s, .head _, filter_together.symm⟩, ?_⟩
        intro group hgroup
        obtain ⟨t, ht, same⟩ := ih.whole group hgroup
        exact ⟨t, .tail _ (List.mem_of_mem_filter ht), same.trans (filter_apart (away ht)).symm⟩
      · exact (ih.order.trans List.filter_sublist).cons_cons s
      · exact List.pairwise_cons.mpr
          ⟨fun t ht => (away (ih.order.subset ht)).symm, ih.distinct⟩

end Groups

/-- How groups are put back, from the number of the first selector that is free to that of the first
    one that is still free afterwards. -/
inductive Regroups : (first : Nat) → List (List State) → (last : Nat) → List State → Prop where
  | done {first : Nat} : Regroups first [] first []
  | kept {first last : Nat} {group queue : List State} {groups : List (List State)}
      (refused : group.length < 2 ∨ Merge.Refuses group (selectorName first))
      (later : Regroups first groups last queue) :
      Regroups first (group :: groups) last (group ++ queue)
  | merged {first last n n' : Nat} {group queue : List State} {groups : List (List State)} {m : State}
      (several : 2 ≤ group.length)
      (merged : (Merge.merge group (selectorName first)).run n = (.ok m, n'))
      (later : Regroups (first + 1) groups last queue) :
      Regroups first (group :: groups) last (m :: queue)

/-- A group was merged into a state, with one of the selectors in this range. -/
def MergedInto (first last : Nat) (group : List State) (m : State) : Prop :=
  ∃ k n n', first ≤ k ∧ k < last ∧ 2 ≤ group.length ∧
    (Merge.merge group (selectorName k)).run n = (.ok m, n')

namespace Regroups

variable {first last : Nat} {groups : List (List State)} {queue group : List State} {t : State}

theorem first_le_last (h : Regroups first groups last queue) : first ≤ last := by
  induction h with
  | done => exact Nat.le_refl _
  | kept _ _ ih => exact ih
  | merged _ _ _ ih => exact Nat.le_of_succ_le ih

/-- Several states that merging does not refuse come back as one. -/
theorem merged_of_accepts (several : 2 ≤ group.length)
    (accepts : ¬ Merge.Refuses group (selectorName first))
    (h : Regroups first (group :: groups) last queue) :
    ∃ m rest, queue = m :: rest ∧ Regroups (first + 1) groups last rest := by
  cases h with
  | kept refused _ =>
      rcases refused with few | refuses
      · exact absurd several (Nat.not_le_of_lt few)
      · exact absurd refuses accepts
  | merged _ _ later => exact ⟨_, _, rfl, later⟩

/-- Where a state of the new queue comes from. -/
theorem mem (h : Regroups first groups last queue) (ht : t ∈ queue) :
    ∃ group ∈ groups, t ∈ group ∨ MergedInto first last group t := by
  induction h with
  | done => cases ht
  | kept _ _ ih =>
      rcases List.mem_append.mp ht with here | later
      · exact ⟨_, .head _, .inl here⟩
      · obtain ⟨group, hgroup, origin⟩ := ih later
        exact ⟨group, .tail _ hgroup, origin⟩
  | merged several merged rest ih =>
      rcases List.mem_cons.mp ht with rfl | later
      · exact ⟨_, .head _, .inr ⟨_, _, _, Nat.le_refl _, rest.first_le_last, several, merged⟩⟩
      · obtain ⟨group, hgroup, origin⟩ := ih later
        refine ⟨group, .tail _ hgroup, origin.imp_right ?_⟩
        rintro ⟨k, n, n', unused, below⟩
        exact ⟨k, n, n', Nat.le_of_succ_le unused, below⟩

/-- Where a group goes. -/
theorem covers (h : Regroups first groups last queue) (hgroup : group ∈ groups) :
    (∀ s ∈ group, s ∈ queue) ∨ ∃ m ∈ queue, MergedInto first last group m := by
  induction h with
  | done => cases hgroup
  | kept _ _ ih =>
      rcases List.mem_cons.mp hgroup with rfl | later
      · exact .inl fun s hs => List.mem_append_left _ hs
      · rcases ih later with stays | ⟨m, hm, merged⟩
        · exact .inl fun s hs => List.mem_append_right _ (stays s hs)
        · exact .inr ⟨m, List.mem_append_right _ hm, merged⟩
  | merged several merged rest ih =>
      rcases List.mem_cons.mp hgroup with rfl | later
      · exact .inr ⟨_, .head _, _, _, _, Nat.le_refl _, rest.first_le_last, several, merged⟩
      · rcases ih later with stays | ⟨m, hm, k, n, n', unused, below⟩
        · exact .inl fun s hs => .tail _ (stays s hs)
        · exact .inr ⟨m, .tail _ hm, k, n, n', Nat.le_of_succ_le unused, below⟩

end Regroups

variable {x : Explorer}

/-- Groups are put behind what is in the queue, and besides the session nothing else changes. -/
theorem regroups_mergeGroups (x : Explorer) (groups : List (List State)) :
    ∃ session last queue, Regroups x.merges groups last queue ∧
      (x.mergeGroups groups).1 = { x with session, active := x.active ++ queue, merges := last } := by
  induction groups generalizing x with
  | nil => exact ⟨x.session, x.merges, [], .done, by rw [List.append_nil]; rfl⟩
  | cons group rest ih =>
      have onward : (x.mergeGroups (group :: rest)).1 = ((x.mergeGroup group).1.mergeGroups rest).1 := rfl
      obtain ⟨session, last, queue, later, left⟩ := ih (x.mergeGroup group).1
      rw [onward, left]
      rcases mergeGroup_cases x group with ⟨m, s, several, merged, result⟩ | ⟨s, refused, result⟩
      · rw [result] at later ⊢
        refine ⟨session, last, m :: queue, .merged several merged later, ?_⟩
        rw [List.append_assoc, List.singleton_append]
      · rw [result] at later ⊢
        have refuses : group.length < 2 ∨ Merge.Refuses group (selectorName x.merges) :=
          refused.imp_right fun ⟨_, failed⟩ => Merge.refuses_of_run failed
        refine ⟨session, last, group ++ queue, .kept refuses later, ?_⟩
        rw [List.append_assoc]

theorem regroups_mergeActive (x : Explorer) :
    Regroups x.merges (groups x.active) x.mergeActive.1.merges x.mergeActive.1.active ∧
      x.mergeActive.1 = { x with
        session := x.mergeActive.1.session
        active := x.mergeActive.1.active
        merges := x.mergeActive.1.merges } := by
  obtain ⟨session, last, queue, regroups, left⟩ :=
    regroups_mergeGroups { x with active := [] } (groups x.active)
  have whole : x.mergeActive.1 = { x with session, active := queue, merges := last } := left
  rw [whole]
  exact ⟨regroups, rfl⟩

/-- What is folded away and what is in the queue are together what was there before. -/
theorem mergeGroup_balance (x : Explorer) (group : List State) :
    (x.mergeGroup group).2 + (x.mergeGroup group).1.active.length = x.active.length + group.length := by
  rcases mergeGroup_cases x group with ⟨m, session, several, -, result⟩ | ⟨session, -, result⟩
  · rw [result]
    simp only [List.length_append, List.length_singleton]
    omega
  · rw [result]
    simp only [List.length_append, Nat.zero_add]

theorem mergeGroups_balance (x : Explorer) (groups : List (List State)) :
    (x.mergeGroups groups).2 + (x.mergeGroups groups).1.active.length =
      x.active.length + groups.flatten.length := by
  induction groups generalizing x with
  | nil => exact Nat.zero_add _
  | cons group rest ih =>
      have first := mergeGroup_balance x group
      have later := ih (x.mergeGroup group).1
      rw [List.flatten_cons, List.length_append]
      simp only [mergeGroups]
      omega

/-- The count that merging gives is by how much the queue gets shorter. -/
theorem mergeActive_balance (x : Explorer) :
    x.mergeActive.2 + x.mergeActive.1.active.length = x.active.length := by
  have balance := mergeGroups_balance { x with active := [] } (groups x.active)
  rw [← (grouped_groups x.active).grouping.perm.length_eq]
  exact balance.trans (Nat.zero_add _)

end Explorer

end PathSearch
