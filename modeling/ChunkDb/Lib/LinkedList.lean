/-
# Doubly linked lists

A list that is linked through its own nodes: every node has the one before it and the one
behind it, and the list has its two ends.  `LinkedList.IsList` says which nodes it has, in
order.

* `LinkedList.link` puts a node behind another one or in front of all (`isList_link`);
* `LinkedList.unlink` takes a node out (`isList_unlink`);
* `LinkedList.walkBack` goes back from the newest node past those that meet a condition
  (`walkBack_eq`).
-/
import Mathlib.Data.List.DropRight
import Mathlib.Tactic

/-- The links of all nodes, and the ends. -/
structure LinkedList (α : Type*) where
  older : α → Option α
  newer : α → Option α
  oldest : Option α
  newest : Option α

namespace LinkedList

open List Function Option

variable {α : Type*}

/-- No node. -/
def empty : LinkedList α := ⟨fun _ => none, fun _ => none, none, none⟩

/-- Nodes linked one behind the other, between what is before the first and behind the last. -/
def Segment (l : LinkedList α) : Option α → List α → Option α → Prop
  | _, [], _ => True
  | before, a :: rest, after =>
    l.older a = before ∧ l.newer a = rest.head?.or after ∧ Segment l (some a) rest after

/-- The nodes of the list, the oldest first. -/
structure IsList (l : LinkedList α) (nodes : List α) : Prop where
  oldest_eq : l.oldest = nodes.head?
  newest_eq : l.newest = nodes.getLast?
  nodup : nodes.Nodup
  segment : l.Segment none nodes none

theorem isList_empty : (empty : LinkedList α).IsList [] := ⟨rfl, rfl, nodup_nil, trivial⟩

theorem segment_append {l : LinkedList α} {before after : Option α} {xs ys : List α} :
    l.Segment before (xs ++ ys) after
      ↔ l.Segment before xs (ys.head?.or after) ∧ l.Segment (xs.getLast?.or before) ys after := by
  induction xs generalizing before with
  | nil => simp [Segment]
  | cons x xs ih =>
    have hhead : (xs ++ ys).head?.or after = xs.head?.or (ys.head?.or after) := by
      rw [head?_append, Option.or_assoc]
    have hlast : (x :: xs).getLast?.or before = xs.getLast?.or (some x) := by
      rw [getLast?_cons]
      cases xs.getLast? <;> rfl
    rw [cons_append, Segment, Segment, ih, hhead, hlast]
    tauto

theorem Segment.congr {l l' : LinkedList α} {before after : Option α} {xs : List α}
    (h : l.Segment before xs after) (holder : ∀ x ∈ xs, l'.older x = l.older x)
    (hnewer : ∀ x ∈ xs, l'.newer x = l.newer x) : l'.Segment before xs after := by
  induction xs generalizing before with
  | nil => trivial
  | cons x rest ih =>
    rw [forall_mem_cons] at holder hnewer
    exact ⟨holder.1.trans h.1, hnewer.1.trans h.2.1, ih h.2.2 holder.2 hnewer.2⟩

/-- A segment is put behind another node: its other links stay. -/
theorem Segment.relink_before {l l' : LinkedList α} {before before' after : Option α} {xs : List α}
    [DecidableEq α] (h : l.Segment before xs after) (hnodup : xs.Nodup)
    (holder : ∀ x ∈ xs, l'.older x = if xs.head? = some x then before' else l.older x)
    (hnewer : ∀ x ∈ xs, l'.newer x = l.newer x) : l'.Segment before' xs after := by
  cases xs with
  | nil => trivial
  | cons x rest =>
    rw [forall_mem_cons] at holder hnewer
    refine ⟨holder.1.trans (if_pos rfl), hnewer.1.trans h.2.1, h.2.2.congr (fun y hy => ?_) hnewer.2⟩
    rw [holder.2 y hy, if_neg]
    rintro ⟨⟩
    exact (nodup_cons.mp hnodup).1 hy

/-- A segment is put in front of another node: its other links stay. -/
theorem Segment.relink_after {l l' : LinkedList α} {before after after' : Option α} {xs : List α}
    [DecidableEq α] (h : l.Segment before xs after) (hnodup : xs.Nodup)
    (holder : ∀ x ∈ xs, l'.older x = l.older x)
    (hnewer : ∀ x ∈ xs, l'.newer x = if xs.getLast? = some x then after' else l.newer x) :
    l'.Segment before xs after' := by
  obtain rfl | ⟨front, a, rfl⟩ := eq_nil_or_concat' xs
  · trivial
  · rw [getLast?_concat] at hnewer
    rw [forall_mem_append, forall_mem_singleton] at holder hnewer
    obtain ⟨hfront, hlast⟩ := segment_append.mp h
    refine segment_append.mpr ⟨hfront.congr holder.1 fun y hy => ?_, holder.2.trans hlast.1,
      hnewer.2.trans (if_pos rfl), trivial⟩
    rw [hnewer.1 y hy, if_neg]
    rintro ⟨⟩
    exact (nodup_append.mp hnodup).2.2 a hy a (mem_singleton_self a) rfl

variable [DecidableEq α]

/-- What is behind a node, or in front of all. -/
def behind (l : LinkedList α) : Option α → Option α
  | some b => l.newer b
  | none => l.oldest

/-- Put node `a` behind `before`, or in front of all. -/
def link (l : LinkedList α) (before : Option α) (a : α) : LinkedList α :=
  let after := l.behind before
  let older := update l.older a before
  let newer := update l.newer a after
  { older := match after with
      | some n => update older n (some a)
      | none => older
    newest := match after with
      | some _ => l.newest
      | none => some a
    newer := match before with
      | some b => update newer b (some a)
      | none => newer
    oldest := match before with
      | some _ => l.oldest
      | none => some a }

/-- Take node `a` out. -/
def unlink (l : LinkedList α) (a : α) : LinkedList α :=
  { newer := match l.older a with
      | some o => update l.newer o (l.newer a)
      | none => l.newer
    oldest := match l.older a with
      | some _ => l.oldest
      | none => l.newer a
    older := match l.newer a with
      | some n => update l.older n (l.older a)
      | none => l.older
    newest := match l.newer a with
      | some _ => l.newest
      | none => l.older a }

variable (l : LinkedList α) (before : Option α) (a x : α)

theorem older_link : (l.link before a).older x
    = if l.behind before = some x then some a else if x = a then before else l.older x := by
  unfold link
  cases l.behind before with
  | none => simp [update_apply]
  | some n => simp [update_apply, eq_comm]

theorem newer_link : (l.link before a).newer x
    = if before = some x then some a else if x = a then l.behind before else l.newer x := by
  unfold link
  cases before with
  | none => simp [update_apply]
  | some b => simp [update_apply, eq_comm]

theorem older_unlink : (l.unlink a).older x
    = if l.newer a = some x then l.older a else l.older x := by
  unfold unlink
  cases l.newer a with
  | none => simp
  | some n => simp [update_apply, eq_comm]

theorem newer_unlink : (l.unlink a).newer x
    = if l.older a = some x then l.newer a else l.newer x := by
  unfold unlink
  cases l.older a with
  | none => simp
  | some o => simp [update_apply, eq_comm]

variable {l before a x}

/-- A node is put between two parts of the list. -/
theorem isList_link {pre post : List α} (h : l.IsList (pre ++ post)) (ha : a ∉ pre ++ post) :
    (l.link pre.getLast? a).IsList (pre ++ a :: post) := by
  obtain ⟨hpre, hpost⟩ := segment_append.mp h.segment
  rw [or_none] at hpre hpost
  obtain ⟨hnpre, hnpost, hdisjoint⟩ := nodup_append.mp h.nodup
  have hapre : a ∉ pre := fun hmem => ha (mem_append_left _ hmem)
  have hapost : a ∉ post := fun hmem => ha (mem_append_right _ hmem)
  have hbehind : l.behind pre.getLast? = post.head? := by
    cases hlast : pre.getLast? with
    | none =>
      obtain rfl := getLast?_eq_none_iff.mp hlast
      exact h.oldest_eq
    | some b =>
      obtain ⟨front, rfl⟩ := getLast?_eq_some_iff.mp hlast
      have hb := (segment_append.mp hpre).2.2.1
      rw [head?_nil, none_or] at hb
      exact hb
  refine ⟨?_, ?_, ?_, segment_append.mpr ⟨hpre.relink_after hnpre (fun x hx => ?_) fun x hx => ?_,
    ?_, ?_, hpost.relink_before hnpost (fun x hx => ?_) fun x hx => ?_⟩⟩
  · cases pre with
    | nil => rfl
    | cons p pre =>
      rw [getLast?_cons]
      exact h.oldest_eq
  · have hnewest : (l.link pre.getLast? a).newest
        = match post.head? with
          | some _ => l.newest
          | none => some a := by
      rw [← hbehind]
      rfl
    rw [hnewest, h.newest_eq]
    cases post with
    | nil => simp
    | cons n post => simp
  · rw [nodup_append]
    refine ⟨hnpre, nodup_cons.mpr ⟨hapost, hnpost⟩, fun x hx y hy => ?_⟩
    rcases mem_cons.mp hy with rfl | hy
    · exact ne_of_mem_of_not_mem hx hapre
    · exact hdisjoint x hx y hy
  · rw [older_link, hbehind, if_neg, if_neg (ne_of_mem_of_not_mem hx hapre)]
    intro hhead
    exact hdisjoint x hx x (mem_of_mem_head? hhead) rfl
  · rw [newer_link, if_neg (ne_of_mem_of_not_mem hx hapre)]
    rfl
  · rw [older_link, hbehind, if_neg, if_pos rfl, or_none]
    intro hhead
    exact hapost (mem_of_mem_head? hhead)
  · rw [newer_link, if_neg, if_pos rfl, hbehind, or_none]
    intro hlast
    exact hapre (mem_of_getLast? hlast)
  · rw [older_link, hbehind, if_neg (ne_of_mem_of_not_mem hx hapost)]
  · rw [newer_link, if_neg, if_neg (ne_of_mem_of_not_mem hx hapost)]
    intro hlast
    exact hdisjoint x (mem_of_getLast? hlast) x hx rfl

/-- A node is taken out from between two parts of the list. -/
theorem isList_unlink {pre post : List α} (h : l.IsList (pre ++ a :: post)) :
    (l.unlink a).IsList (pre ++ post) := by
  obtain ⟨hpre, holder, hnewer, hpost⟩ := segment_append.mp h.segment
  rw [or_none] at hpre holder hnewer
  obtain ⟨hnpre, hn, hdisjoint⟩ := nodup_append.mp h.nodup
  obtain ⟨hapost, hnpost⟩ := nodup_cons.mp hn
  have hdisjoint' : ∀ x ∈ pre, ∀ y ∈ post, x ≠ y :=
    fun x hx y hy => hdisjoint x hx y (mem_cons_of_mem _ hy)
  refine ⟨?_, ?_, nodup_append.mpr ⟨hnpre, hnpost, hdisjoint'⟩, segment_append.mpr
    ⟨hpre.relink_after hnpre (fun x hx => ?_) fun x _ => ?_,
      hpost.relink_before hnpost (fun x _ => ?_) fun x hx => ?_⟩⟩
  · have holdest : (l.unlink a).oldest
        = match pre.getLast? with
          | some _ => l.oldest
          | none => post.head? := by
      rw [← holder, ← hnewer]
      rfl
    rw [holdest, h.oldest_eq]
    cases pre with
    | nil => simp
    | cons p pre => simp [getLast?_cons]
  · have hnewest : (l.unlink a).newest
        = match post.head? with
          | some _ => l.newest
          | none => pre.getLast? := by
      rw [← holder, ← hnewer]
      rfl
    rw [hnewest, h.newest_eq]
    cases post with
    | nil => simp
    | cons n post => simp [getLast?_cons]
  · rw [older_unlink, hnewer, if_neg]
    intro hhead
    exact hdisjoint' x hx x (mem_of_mem_head? hhead) rfl
  · rw [newer_unlink, holder, hnewer, or_none]
  · rw [older_unlink, hnewer, holder, or_none]
  · rw [newer_unlink, holder, if_neg]
    intro hlast
    exact hdisjoint' x (mem_of_getLast? hlast) x hx rfl

omit [DecidableEq α] in
/-- Going back from a node past those that meet a condition, at most `fuel` of them. -/
def walkBack (l : LinkedList α) (p : α → Bool) : ℕ → Option α → Option α
  | 0, current => current
  | _ + 1, none => none
  | fuel + 1, some a => if p a then walkBack l p fuel (l.older a) else some a

omit [DecidableEq α] in
/-- The walk from the newest node ends at the last node that does not meet the condition. -/
theorem walkBack_eq {p : α → Bool} {nodes : List α} {after : Option α} {fuel : ℕ}
    (h : l.Segment none nodes after) (hfuel : nodes.length ≤ fuel) :
    l.walkBack p fuel nodes.getLast? = (nodes.rdropWhile p).getLast? := by
  induction nodes using List.reverseRecOn generalizing after fuel with
  | nil =>
    cases fuel with
    | zero => rfl
    | succ fuel => rfl
  | append_singleton front a ih =>
    obtain ⟨hfront, holder, -, -⟩ := segment_append.mp h
    rw [or_none] at holder
    rw [length_append, length_singleton] at hfuel
    obtain ⟨fuel, rfl⟩ : ∃ k, fuel = k + 1 := ⟨fuel - 1, by omega⟩
    rw [getLast?_concat, walkBack]
    by_cases hp : p a = true
    · rw [if_pos hp, rdropWhile_concat_pos _ _ _ hp, holder]
      exact ih hfront (by omega)
    · rw [if_neg hp, rdropWhile_concat_neg _ _ _ hp, getLast?_concat]

omit [DecidableEq α] in
/-- The walk from the newest node splits the list: all nodes behind the one it ends at meet the
condition, and that one does not. -/
theorem exists_walkBack {p : α → Bool} {nodes : List α} {fuel : ℕ} (h : l.IsList nodes)
    (hfuel : nodes.length ≤ fuel) :
    ∃ pre post, nodes = pre ++ post ∧ l.walkBack p fuel l.newest = pre.getLast?
      ∧ (∀ x ∈ post, p x = true) ∧ ∀ b, pre.getLast? = some b → ¬ p b = true := by
  refine ⟨nodes.rdropWhile p, nodes.rtakeWhile p, rdropWhile_append_rtakeWhile.symm, ?_,
    fun x hx => mem_rtakeWhile_imp hx, fun b hb => ?_⟩
  · rw [h.newest_eq]
    exact walkBack_eq h.segment hfuel
  · have hne : nodes.rdropWhile p ≠ [] := by
      intro hnil
      rw [hnil] at hb
      cases hb
    rw [getLast?_eq_some_getLast hne] at hb
    rw [← Option.some.inj hb]
    exact rdropWhile_last_not p nodes hne

end LinkedList
