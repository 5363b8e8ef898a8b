import SyServer.Base.LinkedList
import SyServer.Lib.Calls
import SyServer.Lib.Cells
import SyServer.Lib.Fifo

/-! # Lists are sequences

The nodes of a list, in order, are a sequence; the calls of `base/list.c` and `base/queue.h` do to it
what their names say.

* `NodeList.Holds`: the links of a sequence of nodes; `Holds.insert` and `Holds.delete` are the two calls
  that change it.
* `list_refines`: over every run, both walks visit the sequence, as long as it is shorter than `2 ^ 31`
  (its length is an `int`); a queue is first in, first out; `sy_list_clear` frees every node once. -/

namespace SyServer

open Calls Cells

/-- The bytes of the two links of a node. -/
def LINKS : ℕ := 2 * WORD

namespace NodeList

variable {s s' : NodeList} {l l' r : List ℕ} {pos n x y v : ℕ}

/-! ### The words of the nodes -/

theorem setNext_next : (s.setNext x v).next y = if y = x then v else s.next y := by
  simp [setNext, next, Function.update_apply]

theorem setNext_prev : (s.setNext x v).prev y = if y + WORD = x then v else s.prev y := by
  simp [setNext, prev, Function.update_apply]

theorem setPrev_next : (s.setPrev x v).next y = if y = x + WORD then v else s.next y := by
  simp [setPrev, next, Function.update_apply]

theorem setPrev_prev : (s.setPrev x v).prev y = if y = x then v else s.prev y := by
  simp [setPrev, prev, Function.update_apply]

/-- Nodes whose links do not overlap. -/
def Separate (l : List ℕ) : Prop := l.Pairwise fun x y => NoOverlap (x, LINKS) (y, LINKS)

theorem Separate.nodup (h : Separate l) : l.Nodup := by
  refine h.imp fun {x y} hxy e => ?_
  subst e
  unfold LINKS WORD at hxy
  rcases hxy with hlt | hlt
  all_goals dsimp only at hlt; omega

/-- No `next` is the `prev` of a node. -/
theorem Separate.word_ne (h : Separate l) (hx : x ∈ l) (hy : y ∈ l) : x ≠ y + WORD := by
  by_cases he : x = y
  · unfold WORD
    omega
  · have hsymm : Std.Symm fun x y : ℕ => NoOverlap (x, LINKS) (y, LINKS) := ⟨fun _ _ h => h.symm⟩
    have hxy := h.forall hx hy he
    unfold LINKS WORD at *
    rcases hxy with hlt | hlt
    all_goals dsimp only at hlt; omega

theorem Separate.perm (h : Separate l) (hperm : l.Perm l') : Separate l' :=
  (hperm.pairwise_iff fun h => h.symm).mp h

/-! ### The sequence of a list -/

/-- The nodes of the list are `l`, linked in both directions; the last one is `dummy.prev`. -/
structure Holds (s : NodeList) (l : List ℕ) : Prop where
  linked : Linked s.next s.prev s.dummy l s.listTail
  ends : s.next s.listTail = 0
  separate : Separate (s.dummy :: l)
  notNull : 0 ∉ s.dummy :: l
  size : s.size = wrap32 l.length

/-- A block for a node that is none of the list. -/
def Fresh (s : NodeList) (l : List ℕ) (n : ℕ) : Prop :=
  n ≠ 0 ∧ ∀ y ∈ s.dummy :: l, NoOverlap (n, LINKS) (y, LINKS)

instance (s : NodeList) (l : List ℕ) (n : ℕ) : Decidable (s.Fresh l n) :=
  inferInstanceAs (Decidable (_ ∧ _))

theorem listInit_holds (mem : ℕ → ℕ) {dummy : ℕ} (hdummy : dummy ≠ 0) (pool : MemPool) :
    (listInit mem dummy pool).Holds [] := by
  have htail : (listInit mem dummy pool).listTail = dummy := by
    simp [listInit, listTail, setPrev_prev]
    simp [setPrev, setNext]
  refine ⟨htail.symm, ?_, List.pairwise_singleton _ _, ?_, ?_⟩
  · rw [htail]
    simp [listInit, setPrev_next, setNext_next, WORD]
  · exact fun h0 => hdummy (List.mem_singleton.mp h0).symm
  · rfl

/-- Where the link back to a new node goes: to the node behind it, or to `dummy`. -/
theorem listInsert_eq (h : s.Holds (l ++ r)) (hpos : (s.dummy :: l).getLast? = some pos)
    (hn : s.Fresh (l ++ r) n) : s.listInsert pos n = .ok
      { (((s.setNext n (s.next pos)).setPrev (r.head?.getD s.dummy) n).setPrev n pos).setNext pos n with
        size := wrap32 (s.size + 1) } := by
  obtain ⟨c, hl, hr⟩ := linked_append.mp h.linked
  obtain rfl : c = pos := Option.some.inj (hl.getLast.symm.trans hpos)
  have hc : c ≠ 0 := by
    rintro rfl
    exact h.notNull (List.mem_append_left r (List.mem_of_mem_getLast? hpos))
  unfold listInsert
  rw [if_neg hc]
  have hnext : (s.setNext n (s.next c)).next n = s.next c := by rw [setNext_next, if_pos rfl]
  dsimp only
  rw [hnext]
  cases r with
  | nil =>
      have hend : s.next c = 0 := by rw [show c = s.listTail from hr]; exact h.ends
      rw [if_neg (not_not.mpr hend)]
      rfl
  | cons f r =>
      have hf : f ≠ 0 := by
        rintro rfl
        exact h.notNull (List.mem_cons_of_mem _ (List.mem_append_right _ List.mem_cons_self))
      rw [hr.1, if_pos hf]
      rfl

/-- The last cell of the second half. -/
theorem tail_mem {next prev : ℕ → ℕ} {c t : ℕ} (h : Linked next prev c r t) (hr : r ≠ []) : t ∈ r := by
  cases r with
  | nil => exact absurd rfl hr
  | cons f r =>
      have hlast := h.getLast
      rw [List.getLast?_cons_cons] at hlast
      exact List.mem_of_mem_getLast? hlast

theorem Fresh.separate (hn : s.Fresh l n) (h : s.Holds l) : Separate (n :: s.dummy :: l) :=
  List.pairwise_cons.mpr ⟨hn.2, h.separate⟩

/-- The node whose `prev` leads to the cell in front of `r`. -/
theorem back_link {d : ℕ} {l r : List ℕ} (hd : d ∉ l ++ r) : r.head?.getD d ∈ d :: (l ++ r) ∧
    (∀ x ∈ r.head?, x = r.head?.getD d) ∧ ∀ x ∈ l ++ r, x ∉ r.head? → x ≠ r.head?.getD d := by
  cases r with
  | nil =>
      refine ⟨List.mem_cons_self, (fun x hx => by cases hx), ?_⟩
      rintro x hx - rfl
      exact hd hx
  | cons f r =>
      refine ⟨List.mem_cons_of_mem _ (List.mem_append_right _ List.mem_cons_self), ?_, ?_⟩
      · rintro x ⟨⟩
        rfl
      · exact fun x _ hx e => hx (congrArg some e.symm)

/-- The nodes `m` take the place of what was between `c` and `r`: `e` is the last of them, or `c`. -/
theorem splice_holds {m : List ℕ} {c e : ℕ} (hdummy : s'.dummy = s.dummy) (hl : Linked s.next s.prev s.dummy l c)
    (hmid : Linked s'.next s'.prev c m e) (hr : Linked s.next s.prev n r s.listTail)
    (hends : s.next s.listTail = 0) (hsep : Separate (s.dummy :: (l ++ (m ++ r))))
    (hnull : 0 ∉ s.dummy :: (l ++ (m ++ r))) (hsize : s'.size = wrap32 ((l ++ (m ++ r)).length : ℤ))
    (hjoin : s'.next e = s.next n) (hnext : ∀ x ∈ s.dummy :: (l ++ r), x ≠ c → s'.next x = s.next x)
    (hprev : ∀ x ∈ s.dummy :: (l ++ r),
      s'.prev x = if x = r.head?.getD s.dummy then e else s.prev x) : s'.Holds (l ++ (m ++ r)) := by
  have hold : (s.dummy :: (l ++ r)).Nodup :=
    hsep.nodup.sublist (((List.sublist_append_right m r).append_left l).cons_cons _)
  have hsplit := List.nodup_append.mp (show ((s.dummy :: l) ++ r).Nodup from hold)
  obtain ⟨-, hhead, hother⟩ := back_link (List.nodup_cons.mp hold).1
  have htail : s'.listTail = if r = [] then e else s.listTail := by
    unfold listTail
    rw [hdummy, hprev _ List.mem_cons_self]
    cases r with
    | nil => exact (if_pos rfl).trans (if_pos rfl).symm
    | cons f r =>
        have hf : s.dummy ≠ f := fun e => hsplit.2.2 _ List.mem_cons_self f List.mem_cons_self e
        rw [if_neg (List.cons_ne_nil _ _)]
        exact if_neg hf
  have hlinked := hl.splice hmid hr hold hjoin (fun x hx => ?_) hnext fun x hx hxr => ?_
  · refine ⟨?_, ?_, ?_, ?_, hsize⟩
    · rw [hdummy, htail]
      exact hlinked
    · rw [htail]
      by_cases h0 : r = []
      · subst h0
        rw [if_pos rfl, hjoin, show n = s.listTail from hr]
        exact hends
      · have hmem := tail_mem hr h0
        rw [if_neg h0, hnext _ (List.mem_cons_of_mem _ (List.mem_append_right _ hmem)) ?_]
        · exact hends
        · intro htc
          exact hsplit.2.2 c (List.mem_of_mem_getLast? hl.getLast) c (htc ▸ hmem) rfl
    · rwa [hdummy]
    · rwa [hdummy]
  · have hmem : x ∈ s.dummy :: (l ++ r) :=
      List.mem_cons_of_mem _ (List.mem_append_right _ (List.mem_of_mem_head? hx))
    rw [hprev x hmem, if_pos (hhead x hx)]
  · rw [hprev x (List.mem_cons_of_mem _ hx), if_neg (hother x hx hxr)]

/-- A node more, behind `pos`. -/
theorem Holds.insert (h : s.Holds (l ++ r)) (hpos : (s.dummy :: l).getLast? = some pos)
    (hn : s.Fresh (l ++ r) n) :
    ∃ s', s.listInsert pos n = .ok s' ∧ s'.Holds (l ++ n :: r) ∧ s'.dummy = s.dummy := by
  refine ⟨_, listInsert_eq h hpos hn, ?_, rfl⟩
  obtain ⟨c, hl, hr⟩ := linked_append.mp h.linked
  obtain rfl : c = pos := Option.some.inj (hl.getLast.symm.trans hpos)
  have hsep := hn.separate h
  have hnodup := hsep.nodup
  have hword : ∀ x ∈ n :: s.dummy :: (l ++ r), ∀ y ∈ n :: s.dummy :: (l ++ r), x ≠ y + WORD :=
    fun x hx y hy => hsep.word_ne hx hy
  have hin : ∀ x ∈ s.dummy :: (l ++ r), x ∈ n :: s.dummy :: (l ++ r) := fun x => List.mem_cons_of_mem n
  have hne : ∀ x ∈ s.dummy :: (l ++ r), x ≠ n := fun x hx e => (List.nodup_cons.mp hnodup).1 (e ▸ hx)
  have hc : c ∈ s.dummy :: (l ++ r) := List.mem_append_left r (List.mem_of_mem_getLast? hpos)
  obtain ⟨hgmem, -, -⟩ := back_link (List.nodup_cons.mp (List.nodup_cons.mp hnodup).2).1
  generalize hs' : ({ (((s.setNext n (s.next c)).setPrev (r.head?.getD s.dummy) n).setPrev n c).setNext c n with
    size := wrap32 (s.size + 1) } : NodeList) = s'
  have hnext : ∀ x ∈ n :: s.dummy :: (l ++ r),
      s'.next x = if x = c then n else if x = n then s.next c else s.next x := by
    intro x hx
    rw [← hs']
    refine setNext_next.trans ?_
    rw [setPrev_next, setPrev_next, setNext_next,
      if_neg (hword x hx n List.mem_cons_self), if_neg (hword x hx _ (hin _ hgmem))]
  have hprev : ∀ x ∈ n :: s.dummy :: (l ++ r),
      s'.prev x = if x = n then c else if x = r.head?.getD s.dummy then n else s.prev x := by
    intro x hx
    rw [← hs']
    refine setNext_prev.trans ?_
    rw [setPrev_prev, setPrev_prev, setNext_prev,
      if_neg (hword c (hin c hc) x hx).symm, if_neg (hword n List.mem_cons_self x hx).symm]
  have hperm : (s.dummy :: (l ++ n :: r)).Perm (n :: s.dummy :: (l ++ r)) :=
    show ((s.dummy :: l) ++ n :: r).Perm (n :: ((s.dummy :: l) ++ r)) from List.perm_middle
  refine splice_holds (m := [n]) (e := n) ?_ hl ?_ hr h.ends (hsep.perm hperm.symm) ?_ ?_ ?_
    (fun x hx hxc => ?_) fun x hx => ?_
  · rw [← hs']
    rfl
  · refine ⟨?_, ?_, rfl⟩
    · rw [hnext c (hin c hc), if_pos rfl]
    · rw [hprev n List.mem_cons_self, if_pos rfl]
  · intro h0
    rcases List.mem_cons.mp (hperm.mem_iff.mp h0) with h0 | h0
    · exact hn.1 h0.symm
    · exact h.notNull h0
  · rw [← hs']
    show wrap32 (s.size + 1) = wrap32 ((l ++ n :: r).length : ℤ)
    rw [h.size, wrap32_add, List.length_append, List.length_append, List.length_cons]
    congr 1
  · rw [hnext n List.mem_cons_self, if_neg (hne c hc).symm, if_pos rfl]
  · rw [hnext x (hin x hx), if_neg hxc, if_neg (hne x hx)]
  · rw [hprev x (hin x hx), if_neg (hne x hx)]

theorem listFree_next (hx : x ≠ 0) : (s.listFree x).next y = if y = x then s.pool.cur else s.next y := by
  simp [listFree, poolFree, hx, next, Function.update_apply]

theorem listFree_prev (hx : x ≠ 0) :
    (s.listFree x).prev y = if y + WORD = x then s.pool.cur else s.prev y := by
  simp [listFree, poolFree, hx, prev, Function.update_apply]

/-- What goes to the front of the pool's free list. -/
theorem listFree_cur (hx : x ≠ 0) : (s.listFree x).pool.cur = x := by
  simp [listFree, poolFree, hx]

/-- The node `x` behind the node `c` goes back to the pool. -/
theorem listDelete_eq {c : ℕ} (h : s.Holds (l ++ x :: r)) (hshort : (l ++ x :: r).length < 2 ^ 31)
    (hl : Linked s.next s.prev s.dummy l c) (hr : Linked s.next s.prev c (x :: r) s.listTail) :
    s.listDelete x = .ok
      { ((s.setNext c (s.next x)).setPrev (r.head?.getD s.dummy) c).listFree x with
        size := wrap32 (s.size - 1) } := by
  have hnodup := h.separate.nodup
  have hx : x ∈ s.dummy :: (l ++ x :: r) :=
    List.mem_cons_of_mem _ (List.mem_append_right _ List.mem_cons_self)
  have hsplit := List.nodup_append.mp (show ((s.dummy :: l) ++ x :: r).Nodup from hnodup)
  have hcmem : c ∈ s.dummy :: l := List.mem_of_mem_getLast? hl.getLast
  have hxd : x ≠ s.dummy := fun e => hsplit.2.2 s.dummy List.mem_cons_self x List.mem_cons_self e.symm
  have hxc : x ≠ c := fun e => hsplit.2.2 c hcmem x List.mem_cons_self e.symm
  have hlen : s.size > 0 := by
    rw [h.size, wrap32_of_lt (by omega) (by exact_mod_cast hshort), List.length_append, List.length_cons]
    omega
  have hword := h.separate.word_ne (List.mem_append_left (x :: r) hcmem) hx
  unfold listDelete
  rw [if_pos ⟨hlen, hxd⟩, hr.2.1]
  have hnext : (s.setNext c (s.next x)).next x = s.next x := by rw [setNext_next, if_neg hxc]
  have hprev : (s.setNext c (s.next x)).prev x = c := by rw [setNext_prev, if_neg hword.symm, hr.2.1]
  dsimp only
  rw [hnext, hprev]
  cases r with
  | nil =>
      have hend : s.next x = 0 := by rw [show x = s.listTail from hr.2.2]; exact h.ends
      rw [if_neg (not_not.mpr hend)]
      rfl
  | cons f r =>
      have hf : f ≠ 0 := by
        rintro rfl
        refine h.notNull (List.mem_cons_of_mem _ (List.mem_append_right _ ?_))
        exact List.mem_cons_of_mem _ List.mem_cons_self
      rw [hr.2.2.1, if_pos hf]
      rfl

/-- A node less.  Its first word is a link of the free list now, and the other words of the memory that
are none of the list's are as before. -/
theorem Holds.delete (h : s.Holds (l ++ x :: r)) (hshort : (l ++ x :: r).length < 2 ^ 31) :
    ∃ s', s.listDelete x = .ok s' ∧ s'.Holds (l ++ r) ∧ s'.dummy = s.dummy ∧ s'.pool.cur = x ∧
      s'.mem x = s.pool.cur ∧
      ∀ a, (∀ y ∈ s.dummy :: (l ++ x :: r), a ≠ y ∧ a ≠ y + WORD) → s'.mem a = s.mem a := by
  obtain ⟨c, hl, hr⟩ := linked_append.mp h.linked
  refine ⟨_, listDelete_eq h hshort hl hr, ?_⟩
  have hsep := h.separate
  have hnodup := hsep.nodup
  have hperm : (s.dummy :: (l ++ x :: r)).Perm (x :: s.dummy :: (l ++ r)) :=
    show ((s.dummy :: l) ++ x :: r).Perm (x :: ((s.dummy :: l) ++ r)) from List.perm_middle
  have hsep' := hsep.perm hperm
  have hnew := List.nodup_cons.mp hsep'.nodup
  have hd : s.dummy ∉ l ++ r := (List.nodup_cons.mp hnew.2).1
  have hword : ∀ y ∈ x :: s.dummy :: (l ++ r), ∀ z ∈ x :: s.dummy :: (l ++ r), y ≠ z + WORD :=
    fun y hy z hz => hsep'.word_ne hy hz
  have hin : ∀ y ∈ s.dummy :: (l ++ r), y ∈ x :: s.dummy :: (l ++ r) := fun y => List.mem_cons_of_mem x
  have hne : ∀ y ∈ s.dummy :: (l ++ r), y ≠ x := fun y hy e => hnew.1 (e ▸ hy)
  have hx0 : x ≠ 0 := by
    rintro rfl
    exact h.notNull (hperm.mem_iff.mpr List.mem_cons_self)
  have hc : c ∈ s.dummy :: (l ++ r) := List.mem_append_left r (List.mem_of_mem_getLast? hl.getLast)
  obtain ⟨hgmem, -, -⟩ := back_link hd
  have hcur : (((s.setNext c (s.next x)).setPrev (r.head?.getD s.dummy) c).listFree x).pool.cur = x :=
    listFree_cur hx0
  have hfirst : (((s.setNext c (s.next x)).setPrev (r.head?.getD s.dummy) c).listFree x).next x =
      s.pool.cur := by
    rw [listFree_next hx0, if_pos rfl]
    rfl
  have hnext : ∀ y ∈ s.dummy :: (l ++ r),
      (((s.setNext c (s.next x)).setPrev (r.head?.getD s.dummy) c).listFree x).next y =
        if y = c then s.next x else s.next y := by
    intro y hy
    rw [listFree_next hx0, if_neg (hne y hy), setPrev_next, setNext_next,
      if_neg (hword y (hin y hy) _ (hin _ hgmem))]
  have hprev : ∀ y ∈ s.dummy :: (l ++ r),
      (((s.setNext c (s.next x)).setPrev (r.head?.getD s.dummy) c).listFree x).prev y =
        if y = r.head?.getD s.dummy then c else s.prev y := by
    intro y hy
    rw [listFree_prev hx0, if_neg (hword x List.mem_cons_self y (hin y hy)).symm, setPrev_prev,
      setNext_prev, if_neg (hword c (hin c hc) y (hin y hy)).symm]
  have hframe : ∀ a, (∀ y ∈ s.dummy :: (l ++ x :: r), a ≠ y ∧ a ≠ y + WORD) →
      (((s.setNext c (s.next x)).setPrev (r.head?.getD s.dummy) c).listFree x).next a = s.next a := by
    intro a ha
    have ha' := fun y hy => ha y (hperm.mem_iff.mpr hy)
    rw [listFree_next hx0, if_neg (ha' x List.mem_cons_self).1, setPrev_next,
      if_neg (ha' _ (hin _ hgmem)).2, setNext_next, if_neg (ha' c (hin c hc)).1]
  refine ⟨splice_holds (s := s) (m := []) (e := c) rfl hl rfl hr.2.2 h.ends (List.pairwise_cons.mp hsep').2 ?_ ?_ ?_
    (fun y hy hyc => ?_) fun y hy => ?_, rfl, hcur, hfirst, hframe⟩
  · exact fun h0 => h.notNull (hperm.mem_iff.mpr (List.mem_cons_of_mem _ h0))
  · show wrap32 (s.size - 1) = wrap32 ((l ++ r).length : ℤ)
    rw [h.size, sub_eq_add_neg, wrap32_add, List.length_append, List.length_append, List.length_cons]
    congr 1
    push_cast
    ring
  · exact (hnext c hc).trans (if_pos rfl)
  · exact (hnext y hy).trans (if_neg hyc)
  · exact hprev y hy

/-- The loop of `sy_list_clear` ends, and the nodes are on the free list, each once, before the blocks
that were there. -/
theorem Holds.clear (h : s.Holds l) (hshort : l.length < 2 ^ 31) {rounds : ℕ}
    (hrounds : l.length ≤ rounds) :
    ∃ s', s.listClear rounds = .ok s' ∧ s'.Holds [] ∧ s'.dummy = s.dummy ∧
      ∀ free, Chain s.mem s.pool.cur free 0 →
        (∀ a ∈ free, ∀ y ∈ s.dummy :: l, a ≠ y ∧ a ≠ y + WORD) →
        Chain s'.mem s'.pool.cur (l.reverse ++ free) 0 := by
  induction l generalizing s rounds with
  | nil =>
      have hhead : s.listHead = 0 := by
        have htail : s.dummy = s.listTail := h.linked
        unfold listHead
        rw [htail]
        exact h.ends
      refine ⟨s, ?_, h, rfl, fun free hchain _ => hchain⟩
      cases rounds
      all_goals exact if_pos hhead
  | cons x l ih =>
      rw [List.length_cons] at hshort hrounds
      obtain ⟨k, rfl⟩ : ∃ k, rounds = k + 1 := ⟨rounds - 1, by omega⟩
      have hx : x ≠ 0 := by
        rintro rfl
        exact h.notNull (List.mem_cons_of_mem _ List.mem_cons_self)
      have hhead : s.listHead = x := h.linked.1
      obtain ⟨s₁, hok, h₁, hdummy, hcur, hfirst, hframe⟩ := Holds.delete (l := []) h hshort
      have hrounds' : l.length ≤ k := by omega
      obtain ⟨s', hclear, h', hdummy', hrest⟩ := ih h₁ (by omega) hrounds'
      refine ⟨s', ?_, h', hdummy'.trans hdummy, fun free hchain hoff => ?_⟩
      · unfold listClear
        rw [hhead, if_neg hx, hok]
        exact hclear
      · rw [List.reverse_cons, List.append_assoc]
        refine hrest (x :: free) ⟨hcur, ?_⟩ ?_
        · rw [hfirst]
          exact hchain.congr fun a ha => hframe a (hoff a ha)
        · rw [hdummy]
          have hin : ∀ y ∈ s.dummy :: l, y ∈ s.dummy :: (x :: l) := fun y hy => by
            rcases List.mem_cons.mp hy with rfl | hy
            · exact List.mem_cons_self
            · exact List.mem_cons_of_mem _ (List.mem_cons_of_mem _ hy)
          refine List.forall_mem_cons.mpr ⟨fun y hy => ⟨?_, ?_⟩, fun a ha y hy => hoff a ha y (hin y hy)⟩
          · rintro rfl
            have hnodup := h.separate.nodup
            rw [List.nodup_cons, List.nodup_cons] at hnodup
            rcases List.mem_cons.mp hy with rfl | hy
            · exact hnodup.1 List.mem_cons_self
            · exact hnodup.2.1 hy
          · exact h.separate.word_ne (List.mem_cons_of_mem _ List.mem_cons_self) (hin y hy)

/-! ### What the walks see -/

/-- The list is the sequence `l`: both walks visit it and end, and `size`, `sy_queue_front`,
`sy_queue_back` and `sy_queue_empty` are those of `l`. -/
structure Refines (s : NodeList) (l : List ℕ) : Prop where
  forward : Chain s.next s.listHead l 0
  backward : Chain s.prev s.listTail l.reverse s.dummy
  null : 0 ∉ l
  dummy : s.dummy ∉ l
  size : s.size = l.length
  front : s.queueFront = (l.head?.map dataOf).getD 0
  back : s.queueBack = (l.getLast?.map dataOf).getD 0
  empty : s.queueEmpty = l.isEmpty

theorem Holds.refines (h : s.Holds l) (hshort : l.length < 2 ^ 31) : s.Refines l := by
  have hforward := h.linked.forward
  rw [h.ends] at hforward
  have hnull : 0 ∉ l := fun h0 => h.notNull (List.mem_cons_of_mem _ h0)
  have hnodup := List.nodup_cons.mp h.separate.nodup
  have hsize : s.size = l.length := by
    rw [h.size, wrap32_of_lt (by omega) (by exact_mod_cast hshort)]
  refine ⟨hforward, h.linked.backward, hnull, hnodup.1, hsize, ?_, ?_, ?_⟩
  · unfold queueFront
    cases l with
    | nil => exact if_pos hforward
    | cons x l =>
        have hx : x ≠ 0 := fun e => hnull (e ▸ List.mem_cons_self)
        rw [show s.listHead = x from hforward.1, if_neg hx]
        rfl
  · unfold queueBack
    cases l with
    | nil => exact if_pos h.linked.symm
    | cons x l =>
        have hlast := h.linked.getLast
        rw [List.getLast?_cons_cons] at hlast
        have htail : s.listTail ≠ s.dummy := fun e => hnodup.1 (e ▸ List.mem_of_mem_getLast? hlast)
        rw [if_neg htail, hlast]
        rfl
  · unfold queueEmpty
    rw [hsize]
    cases l <;> simp
    omega

end NodeList

/-! ### Runs -/

/-- `n` comes right behind `pos`. -/
def insertAfter (pos n : ℕ) : List ℕ → List ℕ
  | [] => []
  | x :: l => if x = pos then x :: n :: l else x :: insertAfter pos n l

theorem exists_insertAfter {pos : ℕ} (n : ℕ) {l : List ℕ} (h : pos ∈ l) :
    ∃ l₁ r, l = l₁ ++ r ∧ l₁.getLast? = some pos ∧ insertAfter pos n l = l₁ ++ n :: r := by
  induction l with
  | nil => cases h
  | cons x l ih =>
      unfold insertAfter
      split_ifs with hx
      · exact ⟨[x], l, rfl, by rw [hx]; rfl, rfl⟩
      · obtain ⟨l₁, r, rfl, hlast, heq⟩ := ih ((List.mem_cons.mp h).resolve_left fun e => hx e.symm)
        refine ⟨x :: l₁, r, rfl, ?_, by rw [heq]; rfl⟩
        cases l₁ with
        | nil => cases hlast
        | cons y l₁ => rw [List.getLast?_cons_cons, hlast]

inductive ListOp where
  /-- `sy_list_insert`. -/
  | insert (pos n : ℕ)
  /-- `sy_list_delete`. -/
  | delete (x : ℕ)
  /-- `sy_queue_push`. -/
  | push (x : ℕ)
  /-- `sy_queue_pop`. -/
  | pop
  /-- `sy_list_clear`, for so many rounds. -/
  | clear (rounds : ℕ)
  /-- Something else changes the memory and the pool. -/
  | other (mem : ℕ → ℕ) (pool : MemPool)

namespace ListOp

def call : ListOp → NodeList → Except Halt NodeList
  | insert pos n, s => s.listInsert pos n
  | delete x, s => s.listDelete x
  | push x, s => s.queuePush x
  | pop, s => s.queuePop
  | clear rounds, s => s.listClear rounds
  | other mem pool, s => .ok { s with mem := mem, pool := pool }

/-- What the call does to the sequence; the node `dummy` stands before its first one. -/
def spec (dummy : ℕ) : ListOp → List ℕ → List ℕ
  | insert pos n, l => (insertAfter pos n (dummy :: l)).tail
  | delete x, l => l.erase x
  | push x, l => l ++ [x - 2 * WORD]
  | pop, l => l.tail
  | clear _, _ => []
  | other _ _, l => l

/-- The position is one of the list, a node that is inserted is none of it, one that is deleted is; nobody
else writes the links of the list. -/
def Allowed (s : NodeList) (l : List ℕ) : ListOp → Prop
  | insert pos n => pos ∈ s.dummy :: l ∧ s.Fresh l n
  | delete x => x ∈ l
  | push x => s.Fresh l (x - 2 * WORD)
  | pop => l ≠ []
  | clear rounds => l.length ≤ rounds
  | other mem _ => ∀ y ∈ s.dummy :: l, mem y = s.mem y ∧ mem (y + WORD) = s.mem (y + WORD)

instance (s : NodeList) (l : List ℕ) (op : ListOp) : Decidable (op.Allowed s l) := by
  cases op <;> unfold Allowed <;> infer_instance

/-- The call on the list, and what it does to the sequence. -/
def step (op : ListOp) (x : NodeList × List ℕ) : Except Halt (NodeList × List ℕ) := do
  let s ← op.call x.1
  pure (s, op.spec x.1.dummy x.2)

end ListOp

/-- One call. -/
theorem NodeList.Holds.call {s : NodeList} {l : List ℕ} (h : s.Holds l) (hshort : l.length < 2 ^ 31)
    {op : ListOp} (ha : op.Allowed s l) :
    ∃ s', op.call s = .ok s' ∧ s'.Holds (op.spec s.dummy l) ∧ s'.dummy = s.dummy := by
  cases op with
  | insert pos n =>
      obtain ⟨hpos, hn⟩ := ha
      obtain ⟨l₁, r, hl, hlast, heq⟩ := exists_insertAfter n hpos
      show ∃ s', s.listInsert pos n = .ok s' ∧ s'.Holds (insertAfter pos n (s.dummy :: l)).tail ∧ _
      rw [heq]
      cases l₁ with
      | nil => cases hlast
      | cons d l₁ =>
          obtain ⟨rfl, rfl⟩ := List.cons.inj hl
          exact h.insert hlast hn
  | delete x =>
      obtain ⟨l₁, r, -, rfl, heq⟩ := List.exists_erase_eq ha
      obtain ⟨s', hok, h', hdummy, -⟩ := h.delete hshort
      exact ⟨s', hok, show s'.Holds ((l₁ ++ x :: r).erase x) from heq ▸ h', hdummy⟩
  | push x =>
      have h' : s.Holds (l ++ []) := by rwa [List.append_nil]
      have ha' : s.Fresh (l ++ []) (x - 2 * WORD) := by rw [List.append_nil]; exact ha
      exact h'.insert h.linked.getLast ha'
  | pop =>
      cases l with
      | nil => exact absurd rfl ha
      | cons x l =>
          obtain ⟨s', hok, h', hdummy, -⟩ := Holds.delete (l := []) h hshort
          have hhead : s.listHead = x := h.linked.1
          exact ⟨s', show s.listDelete s.listHead = .ok s' from hhead ▸ hok, h', hdummy⟩
  | clear rounds =>
      obtain ⟨s', hok, h', hdummy, -⟩ := h.clear hshort ha
      exact ⟨s', hok, h', hdummy⟩
  | other mem pool =>
      have htail : mem (s.dummy + WORD) = s.listTail := (ha s.dummy List.mem_cons_self).2
      refine ⟨_, rfl, ⟨?_, ?_, h.separate, h.notNull, h.size⟩, rfl⟩
      · show Linked mem (fun y => mem (y + WORD)) s.dummy l (mem (s.dummy + WORD))
        rw [htail]
        exact h.linked.congr (fun y hy => (ha y (List.mem_of_mem_dropLast hy)).1)
          fun y hy => (ha y (List.mem_cons_of_mem _ hy)).2
      · show mem (mem (s.dummy + WORD)) = 0
        have hmem : s.listTail ∈ s.dummy :: l := List.mem_of_mem_getLast? h.linked.getLast
        rw [htail, (ha s.listTail hmem).1]
        exact h.ends

section runs

open NodeList

variable {s : NodeList} {l : List ℕ} {x : NodeList × List ℕ} {op : ListOp} {ops : List ListOp}

theorem ListOp.step_ok (h : x.1.Holds x.2) (hshort : x.2.length < 2 ^ 31) (ha : op.Allowed x.1 x.2) :
    ∃ y, op.step x = .ok y ∧ y.1.Holds y.2 ∧ y.2 = op.spec x.1.dummy x.2 ∧ y.1.dummy = x.1.dummy := by
  obtain ⟨s', hok, h', hdummy⟩ := h.call hshort ha
  refine ⟨(s', op.spec x.1.dummy x.2), ?_, h', rfl, hdummy⟩
  unfold ListOp.step
  rw [hok]
  rfl

/-- A run of calls on a list. -/
structure Fair (x : NodeList × List ℕ) (ops : List ListOp) : Prop where
  allowed : ∀ y ∈ calls ListOp.step x ops, y.2.Allowed y.1.1 y.1.2
  short : ∀ y ∈ states ListOp.step x ops, y.2.length < 2 ^ 31

theorem Fair.head (h : Fair x (op :: ops)) : x.2.length < 2 ^ 31 ∧ op.Allowed x.1 x.2 :=
  ⟨h.short x (mem_states x _), h.allowed (x, op) (mem_calls x op ops)⟩

theorem Fair.tail {y : NodeList × List ℕ} (h : Fair x (op :: ops)) (hok : op.step x = .ok y) :
    Fair y ops := by
  obtain ⟨hallowed, hshort⟩ := h
  rw [calls_ok hok] at hallowed
  rw [states_ok hok] at hshort
  exact ⟨(List.forall_mem_cons.mp hallowed).2, (List.forall_mem_cons.mp hshort).2⟩

/-- Over a run the list holds its sequence. -/
theorem Fair.holds (hf : Fair x ops) (h : x.1.Holds x.2) :
    ∀ y ∈ states ListOp.step x ops, y.1.Holds y.2 := by
  induction ops generalizing x with
  | nil => exact List.forall_mem_singleton.mpr h
  | cons op ops ih =>
      obtain ⟨y, hok, h', -⟩ := ListOp.step_ok h hf.head.1 hf.head.2
      rw [states_ok hok]
      exact List.forall_mem_cons.mpr ⟨h, ih (hf.tail hok) h'⟩

/-! ### Queues -/

/-- The calls of a queue. -/
def ListOp.isQueue : ListOp → Bool
  | push _ | pop | other _ _ => true
  | insert _ _ | delete _ | clear _ => false

/-- What goes into a queue. -/
def ListOp.given : ListOp → List ℕ
  | push x => [x]
  | _ => []

/-- What leaves a queue, as `sy_queue_front` returns it before. -/
def ListOp.taken (s : NodeList) : ListOp → List ℕ
  | pop => [s.queueFront]
  | _ => []

/-- One call of a queue. -/
theorem ListOp.passes (h : x.1.Holds x.2) (hshort : x.2.length < 2 ^ 31) (ha : op.Allowed x.1 x.2)
    (hq : op.isQueue) :
    Fifo.Passes (x.2.map dataOf) op.given (op.taken x.1) ((op.spec x.1.dummy x.2).map dataOf) := by
  obtain ⟨s, l⟩ := x
  cases op with
  | push x =>
      have hx : dataOf (x - 2 * WORD) = x := by
        have hn : x - 2 * WORD ≠ 0 := ha.1
        unfold dataOf
        omega
      have hput := Fifo.Passes.put (l.map dataOf) [x]
      show Fifo.Passes (l.map dataOf) [x] [] ((l ++ [x - 2 * WORD]).map dataOf)
      rw [List.map_append, List.map_singleton, hx]
      exact hput
  | pop =>
      cases l with
      | nil => exact absurd rfl ha
      | cons y l =>
          have hfront : s.queueFront = dataOf y := (h.refines hshort).front
          show Fifo.Passes ((y :: l).map dataOf) [] [s.queueFront] (l.map dataOf)
          rw [hfront]
          exact .take rfl
  | other mem pool => exact .refl _
  | insert pos n => cases hq
  | delete y => cases hq
  | clear rounds => cases hq

/-- A run of a queue. -/
theorem Fair.passes (hf : Fair x ops) (h : x.1.Holds x.2) (hq : ∀ op ∈ ops, op.isQueue) :
    ∃ l, Fifo.Passes (x.2.map dataOf) ((calls ListOp.step x ops).flatMap fun y => y.2.given)
      ((calls ListOp.step x ops).flatMap fun y => y.2.taken y.1.1) l := by
  induction ops generalizing x with
  | nil => exact ⟨_, .refl _⟩
  | cons op ops ih =>
      obtain ⟨y, hok, h', hspec, -⟩ := ListOp.step_ok h hf.head.1 hf.head.2
      have hone := ListOp.passes h hf.head.1 hf.head.2 (hq op List.mem_cons_self)
      obtain ⟨l, hrest⟩ := ih (hf.tail hok) h' fun op hop => hq op (List.mem_cons_of_mem _ hop)
      rw [calls_ok hok, List.flatMap_cons, List.flatMap_cons]
      rw [← hspec] at hone
      exact ⟨l, hone.trans hrest⟩

/-! ### The list over its runs -/

/-- **Lists are sequences**: over every run in which the list has fewer than `2 ^ 31` nodes, every call
returns, and both walks see the sequence; `sy_list_clear` frees every node once; and a queue gives out
what was put in, in its order. -/
theorem list_refines {dummy : ℕ} (hdummy : dummy ≠ 0) (mem : ℕ → ℕ) (pool : MemPool) {ops : List ListOp}
    (hallowed : ∀ x ∈ calls ListOp.step (listInit mem dummy pool, []) ops, x.2.Allowed x.1.1 x.1.2)
    (hshort : ∀ x ∈ states ListOp.step (listInit mem dummy pool, []) ops, x.2.length < 2 ^ 31) :
    (∀ x ∈ states ListOp.step (listInit mem dummy pool, []) ops, x.1.Refines x.2) ∧
    (∀ x ∈ calls ListOp.step (listInit mem dummy pool, []) ops, ∃ y, x.2.step x.1 = .ok y) ∧
    (∀ x ∈ states ListOp.step (listInit mem dummy pool, []) ops, ∀ rounds ≥ x.2.length,
      ∃ s', x.1.listClear rounds = .ok s' ∧ s'.Refines [] ∧
        ∀ free, Chain x.1.mem x.1.pool.cur free 0 →
          (∀ a ∈ free, ∀ y ∈ x.1.dummy :: x.2, a ≠ y ∧ a ≠ y + WORD) →
          Chain s'.mem s'.pool.cur (x.2.reverse ++ free) 0) ∧
    ((∀ op ∈ ops, op.isQueue) →
      ((calls ListOp.step (listInit mem dummy pool, []) ops).flatMap fun x => x.2.taken x.1.1) <+:
        (calls ListOp.step (listInit mem dummy pool, []) ops).flatMap fun x => x.2.given) := by
  have hf : Fair (listInit mem dummy pool, []) ops := ⟨hallowed, hshort⟩
  have hinit := listInit_holds mem hdummy pool
  have hholds := hf.holds hinit
  refine ⟨fun x hx => (hholds x hx).refines (hshort x hx), fun x hx => ?_, fun x hx rounds hrounds => ?_,
    fun hq => ?_⟩
  · have hmem := mem_states_of_mem_calls hx
    obtain ⟨y, hok, -⟩ := ListOp.step_ok (hholds _ hmem) (hshort _ hmem) (hallowed x hx)
    exact ⟨y, hok⟩
  · obtain ⟨s', hok, h', -, hchain⟩ := (hholds x hx).clear (hshort x hx) hrounds
    exact ⟨s', hok, h'.refines (by norm_num), hchain⟩
  · obtain ⟨l, hpasses⟩ := hf.passes hinit hq
    exact hpasses.prefix_of_empty

/-- `k` nodes, one behind the other in memory, are put in at the front. -/
def longRun (base k : ℕ) : List ListOp := (List.range' base k LINKS).map (.insert LINKS)

theorem longRun_holds {base k : ℕ} (h : x.1.Holds x.2) (hd : x.1.dummy = LINKS)
    (hlt : ∀ y ∈ x.1.dummy :: x.2, y + LINKS ≤ base) (hshort : x.2.length + k ≤ 2 ^ 31) :
    (∀ y ∈ calls ListOp.step x (longRun base k), y.2.Allowed y.1.1 y.1.2) ∧
      ∃ y ∈ states ListOp.step x (longRun base k), y.1.Holds y.2 ∧ y.2.length = x.2.length + k := by
  induction k generalizing x base with
  | zero => exact ⟨fun y hy => absurd hy List.not_mem_nil, x, mem_states x _, h, rfl⟩
  | succ k ih =>
      have hd' := hlt x.1.dummy List.mem_cons_self
      have ha : (ListOp.insert LINKS base).Allowed x.1 x.2 := by
        refine ⟨hd ▸ List.mem_cons_self, ?_, fun y hy => .inr (hlt y hy)⟩
        rw [hd] at hd'
        unfold LINKS WORD at hd'
        omega
      obtain ⟨y, hok, h', hspec, hdummy⟩ := ListOp.step_ok h (by omega) ha
      have hseq : y.2 = base :: x.2 := by
        rw [hspec]
        show (insertAfter LINKS base (x.1.dummy :: x.2)).tail = base :: x.2
        rw [hd, insertAfter, if_pos rfl]
        rfl
      have hlt' : ∀ z ∈ y.1.dummy :: y.2, z + LINKS ≤ base + LINKS := by
        intro z hz
        rw [hseq, hdummy] at hz
        rcases List.mem_cons.mp hz with rfl | hz
        · have := hlt x.1.dummy List.mem_cons_self
          omega
        · rcases List.mem_cons.mp hz with rfl | hz
          · exact le_rfl
          · have := hlt z (List.mem_cons_of_mem _ hz)
            omega
      obtain ⟨hcalls, z, hz, hzh, hlen⟩ := ih h' (hdummy.trans hd) hlt'
        (by rw [hseq, List.length_cons]; omega)
      have hrun : longRun base (k + 1) = .insert LINKS base :: longRun (base + LINKS) k := by
        unfold longRun
        rw [List.range'_succ, List.map_cons]
      rw [hrun, calls_ok hok, states_ok hok]
      refine ⟨List.forall_mem_cons.mpr ⟨ha, hcalls⟩, z, List.mem_cons_of_mem _ hz, hzh, ?_⟩
      rw [hlen, hseq, List.length_cons]
      omega

def nodePool : MemPool := ⟨24, 64, 0, 0, ⟨0, 0, WORD, 0⟩⟩

/-- With `2 ^ 31` nodes, `size` is negative. -/
theorem size_negative :
    (∀ x ∈ calls ListOp.step (listInit (fun _ => 0) LINKS nodePool, []) (longRun (2 * LINKS) (2 ^ 31)),
      x.2.Allowed x.1.1 x.1.2) ∧
    ∃ x ∈ states ListOp.step (listInit (fun _ => 0) LINKS nodePool, []) (longRun (2 * LINKS) (2 ^ 31)),
      x.2.length = 2 ^ 31 ∧ x.1.size < 0 := by
  have hinit := listInit_holds (fun _ => 0) (show LINKS ≠ 0 by decide) nodePool
  have hlt : ∀ y ∈ [LINKS], y + LINKS ≤ 2 * LINKS := by decide
  obtain ⟨hcalls, x, hx, hholds, hlen⟩ :=
    longRun_holds (x := (listInit (fun _ => 0) LINKS nodePool, [])) (k := 2 ^ 31) hinit rfl hlt (by simp)
  have hlen' : x.2.length = 2 ^ 31 := by rw [hlen]; simp
  refine ⟨hcalls, x, hx, hlen', ?_⟩
  rw [hholds.size, hlen']
  exact wrap32_neg (by norm_num) (by norm_num)

/-- Two nodes are put in and taken out, the first one from behind the second. -/
def shortRun : List ListOp := [.insert 16 64, .push 112, .insert 64 128, .delete 96, .pop]

theorem list_refines_short :
    (∀ x ∈ states ListOp.step (listInit (fun _ => 0) 16 nodePool, []) shortRun, x.1.Refines x.2) ∧
    (∀ x ∈ calls ListOp.step (listInit (fun _ => 0) 16 nodePool, []) shortRun, ∃ y, x.2.step x.1 = .ok y) ∧
    (∀ x ∈ states ListOp.step (listInit (fun _ => 0) 16 nodePool, []) shortRun, ∀ rounds ≥ x.2.length,
      ∃ s', x.1.listClear rounds = .ok s' ∧ s'.Refines [] ∧
        ∀ free, Chain x.1.mem x.1.pool.cur free 0 →
          (∀ a ∈ free, ∀ y ∈ x.1.dummy :: x.2, a ≠ y ∧ a ≠ y + WORD) →
          Chain s'.mem s'.pool.cur (x.2.reverse ++ free) 0) ∧
    ((∀ op ∈ shortRun, op.isQueue) →
      ((calls ListOp.step (listInit (fun _ => 0) 16 nodePool, []) shortRun).flatMap
          fun x => x.2.taken x.1.1) <+:
        (calls ListOp.step (listInit (fun _ => 0) 16 nodePool, []) shortRun).flatMap fun x => x.2.given) :=
  list_refines (by decide) _ _ (by decide +kernel) (by decide +kernel)

end runs

end SyServer
