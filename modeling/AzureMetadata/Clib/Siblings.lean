import Mathlib.Data.List.Basic
import Mathlib.Data.List.Nodup
import Mathlib.Logic.Function.Basic

/-!
# Children in doubly linked lists

Each node points to its parent, to the siblings before and after it, and to its first and
last child.  A pointer of a node is a function of the node, so that an assignment changes
one function at one place.  `Linked L children` is the invariant: the pointers describe the
lists `children`, each of which is linked in both directions, and a node without a parent
has no siblings.  Appending, prepending and detaching a node keep it; the second is the
first with all directions turned round.

Nothing excludes a node that is below itself: the invariant is about each list alone.
-/

set_option autoImplicit false

namespace Clib

/-- The pointers of the nodes. -/
structure Links (ι : Type) where
  parent : ι → Option ι
  prev : ι → Option ι
  next : ι → Option ι
  head : ι → Option ι
  tail : ι → Option ι

namespace Links

variable {ι : Type}

/-- `if (t != NULL) t->f = v;` -/
def setAt {ι : Type} [DecidableEq ι] (f : ι → Option ι) (t v : Option ι) : ι → Option ι :=
  fun x => if t = some x then v else f x

/-- `if (t == NULL) p->f = v;` -/
def setUnless {ι : Type} [DecidableEq ι] (f : ι → Option ι) (t : Option ι) (p : ι) (v : Option ι) :
    ι → Option ι :=
  fun x => if t = none ∧ x = p then v else f x

/-- The pointers with all directions turned round. -/
def flip (L : Links ι) : Links ι where
  parent := L.parent
  prev := L.next
  next := L.prev
  head := L.tail
  tail := L.head

/-- To look from the other end twice is to look from this one. -/
@[simp] theorem flip_flip (L : Links ι) : L.flip.flip = L := rfl

/-! ## Assignments -/

section Assign

variable {ι : Type} [DecidableEq ι] (v : Option ι) (L : Links ι) (x : ι)

/-- `x->parent = v;` -/
def setParent : Links ι := { L with parent := Function.update L.parent x v }

/-- `x->prev = v;` -/
def setPrev : Links ι := { L with prev := Function.update L.prev x v }

/-- `x->next = v;` -/
def setNext : Links ι := { L with next := Function.update L.next x v }

/-- `x->children.head = v;` -/
def setHead : Links ι := { L with head := Function.update L.head x v }

/-- `x->children.tail = v;` -/
def setTail : Links ι := { L with tail := Function.update L.tail x v }

end Assign

section SetAt

variable {ι : Type} [DecidableEq ι] (f : ι → Option ι) (t p : ι) (v : Option ι)

/-- Nothing is set at no node. -/
@[simp] theorem setAt_none : setAt f none v = f := by
  funext x
  exact if_neg (by simp)

/-- At a node the value is set. -/
@[simp] theorem setAt_some : setAt f (some t) v = Function.update f t v := by
  funext x
  by_cases hx : x = t
  · subst hx
    rw [Function.update_self]
    exact if_pos rfl
  · rw [Function.update_of_ne hx]
    exact if_neg (by simpa using Ne.symm hx)

/-- The value is set where there is no node instead. -/
@[simp] theorem setUnless_none : setUnless f none p v = Function.update f p v := by
  funext x
  by_cases hx : x = p
  · subst hx
    rw [Function.update_self]
    exact if_pos ⟨rfl, rfl⟩
  · rw [Function.update_of_ne hx]
    exact if_neg fun h => hx h.2

/-- A node that is there instead leaves all values. -/
@[simp] theorem setUnless_some : setUnless f (some t) p v = f := by
  funext x
  exact if_neg (by simp)

end SetAt

/-! ## Segments -/

/-- Below `p` the nodes of the list follow each other, `before` stands in front of them and
`after` behind. -/
def Segment (L : Links ι) (p : ι) : Option ι → List ι → Option ι → Prop
  | _, [], _ => True
  | before, c :: cs, after => L.parent c = some p ∧ L.prev c = before ∧
      L.next c = cs.head?.or after ∧ Segment L p (some c) cs after

variable {L L' : Links ι} {p c : ι} {before after : Option ι} {xs ys : List ι}

/-- A segment of two lists is two segments, each next to the other. -/
theorem segment_append : Segment L p before (xs ++ ys) after ↔
    Segment L p before xs (ys.head?.or after) ∧ Segment L p (xs.getLast?.or before) ys after := by
  induction xs generalizing before with
  | nil => simp [Segment]
  | cons c cs ih =>
      have hlast : (c :: cs).getLast?.or before = cs.getLast?.or (some c) := by
        cases cs with
        | nil => rfl
        | cons d cs => simp [List.getLast?_cons]
      have hhead : (cs ++ ys).head?.or after = cs.head?.or (ys.head?.or after) := by
        rw [List.head?_append, Option.or_assoc]
      rw [List.cons_append, Segment, Segment, ih, hlast, hhead]
      simp only [and_assoc]

/-- The nodes of a segment have the parent it is below. -/
theorem Segment.parent_eq (h : Segment L p before xs after) : ∀ c ∈ xs, L.parent c = some p := by
  induction xs generalizing before with
  | nil => exact fun c hc => nomatch hc
  | cons d cs ih =>
      intro c hc
      rcases List.mem_cons.mp hc with rfl | hc
      · exact h.1
      · exact ih h.2.2.2 c hc

/-- A segment is about the pointers of its nodes. -/
theorem Segment.congr (h : Segment L p before xs after)
    (hparent : ∀ c ∈ xs, L'.parent c = L.parent c) (hprev : ∀ c ∈ xs, L'.prev c = L.prev c)
    (hnext : ∀ c ∈ xs, L'.next c = L.next c) : Segment L' p before xs after := by
  induction xs generalizing before with
  | nil => trivial
  | cons c cs ih =>
      obtain ⟨hp, hb, hn, hrest⟩ := h
      refine ⟨(hparent c (by simp)).trans hp, (hprev c (by simp)).trans hb,
        (hnext c (by simp)).trans hn, ?_⟩
      exact ih hrest (fun d hd => hparent d (by simp [hd])) (fun d hd => hprev d (by simp [hd]))
        fun d hd => hnext d (by simp [hd])

/-- A segment with something else behind it: the last node has been pointed there. -/
theorem Segment.retarget {after' : Option ι} (h : Segment L p before xs after) (hnodup : xs.Nodup)
    (hparent : ∀ c ∈ xs, L'.parent c = L.parent c) (hprev : ∀ c ∈ xs, L'.prev c = L.prev c)
    (hnext : ∀ c ∈ xs, xs.getLast? ≠ some c → L'.next c = L.next c)
    (hlast : ∀ c, xs.getLast? = some c → L'.next c = after') :
    Segment L' p before xs after' := by
  rcases List.eq_nil_or_concat xs with rfl | ⟨ys, t, rfl⟩
  · trivial
  · rw [List.concat_eq_append] at *
    obtain ⟨hys, ht⟩ := segment_append.mp h
    have htail : (ys ++ [t]).getLast? = some t := by simp
    have hfresh : ∀ c ∈ ys, c ≠ t := by
      rintro c hc rfl
      exact (List.nodup_append.mp hnodup).2.2 c hc c (by simp) rfl
    refine segment_append.mpr ⟨?_, ?_⟩
    · refine hys.congr (fun c hc => hparent c (by simp [hc]))
        (fun c hc => hprev c (by simp [hc])) ?_
      intro c hc
      exact hnext c (by simp [hc]) (by rw [htail]; simpa using (hfresh c hc).symm)
    · refine ⟨(hparent t (by simp)).trans ht.1, (hprev t (by simp)).trans ht.2.1, ?_, trivial⟩
      exact hlast t htail

/-- From the other end the segment is reversed. -/
theorem segment_flip : Segment L.flip p after xs.reverse before ↔ Segment L p before xs after := by
  induction xs generalizing before with
  | nil => exact Iff.rfl
  | cons c cs ih =>
      rw [List.reverse_cons, segment_append, List.head?_cons, Option.some_or, ih, Segment, Segment,
        Segment, List.getLast?_reverse]
      constructor
      · rintro ⟨hcs, hp, hn, hb, -⟩
        exact ⟨hp, hb, hn, hcs⟩
      · rintro ⟨hp, hb, hn, hcs⟩
        exact ⟨hcs, hp, hn, hb, trivial⟩

/-- A segment with something else in front of it. -/
theorem Segment.retarget_before {before' : Option ι} (h : Segment L p before xs after)
    (hnodup : xs.Nodup) (hparent : ∀ c ∈ xs, L'.parent c = L.parent c)
    (hnext : ∀ c ∈ xs, L'.next c = L.next c)
    (hprev : ∀ c ∈ xs, xs.head? ≠ some c → L'.prev c = L.prev c)
    (hfirst : ∀ c, xs.head? = some c → L'.prev c = before') :
    Segment L' p before' xs after := by
  have hflip : Segment L'.flip p after xs.reverse before' := by
    refine (segment_flip.mpr h).retarget (List.nodup_reverse.mpr hnodup) ?_ ?_ ?_ ?_
    · exact fun c hc => hparent c (List.mem_reverse.mp hc)
    · exact fun c hc => hnext c (List.mem_reverse.mp hc)
    · intro c hc hl
      rw [List.getLast?_reverse] at hl
      exact hprev c (List.mem_reverse.mp hc) hl
    · intro c hl
      rw [List.getLast?_reverse] at hl
      exact hfirst c hl
  exact segment_flip.mp hflip

/-! ## The invariant -/

/-- The pointers describe the lists of children. -/
structure Linked (L : Links ι) (children : ι → List ι) : Prop where
  segment : ∀ p, Segment L p none (children p) none
  head : ∀ p, L.head p = (children p).head?
  tail : ∀ p, L.tail p = (children p).getLast?
  mem : ∀ p c, L.parent c = some p → c ∈ children p
  nodup : ∀ p, (children p).Nodup
  prev_root : ∀ c, L.parent c = none → L.prev c = none
  next_root : ∀ c, L.parent c = none → L.next c = none

variable {children : ι → List ι}

/-- The parent of a node is the one whose child it is. -/
theorem Linked.parent_iff (h : Linked L children) : L.parent c = some p ↔ c ∈ children p :=
  ⟨h.mem p c, (h.segment p).parent_eq c⟩

/-- A node without a parent is no one's child. -/
theorem Linked.notMem_of_root (h : Linked L children) (hc : L.parent c = none) (q : ι) :
    c ∉ children q := by
  intro hmem
  rw [h.parent_iff.mpr hmem] at hc
  cases hc

/-- No node is a child of two. -/
theorem Linked.parent_unique (h : Linked L children) {q : ι} (hp : c ∈ children p)
    (hq : c ∈ children q) : p = q :=
  Option.some.inj ((h.parent_iff.mpr hp).symm.trans (h.parent_iff.mpr hq))

/-- The siblings of a node. -/
theorem Linked.siblings (h : Linked L children) (hsplit : children p = xs ++ c :: ys) :
    L.prev c = xs.getLast? ∧ L.next c = ys.head? := by
  have hseg := h.segment p
  rw [hsplit] at hseg
  obtain ⟨-, -, hprev, hnext, -⟩ := segment_append.mp hseg
  rw [Option.or_none] at hprev hnext
  exact ⟨hprev, hnext⟩

/-- From the other end all lists of children are reversed. -/
theorem Linked.flip (h : Linked L children) : Linked L.flip fun p => (children p).reverse where
  segment p := segment_flip.mpr (h.segment p)
  head p := by rw [List.head?_reverse]; exact h.tail p
  tail p := by rw [List.getLast?_reverse]; exact h.head p
  mem p c hc := List.mem_reverse.mpr (h.mem p c hc)
  nodup p := List.nodup_reverse.mpr (h.nodup p)
  prev_root := h.next_root
  next_root := h.prev_root

/-- Nodes without any pointers. -/
theorem linked_nil {L : Links ι} (hparent : ∀ c, L.parent c = none) (hprev : ∀ c, L.prev c = none)
    (hnext : ∀ c, L.next c = none) (hhead : ∀ c, L.head c = none) (htail : ∀ c, L.tail c = none) :
    Linked L fun _ => [] where
  segment _ := trivial
  head := hhead
  tail := htail
  mem p c hc := by rw [hparent] at hc; cases hc
  nodup _ := List.nodup_nil
  prev_root c _ := hprev c
  next_root c _ := hnext c

/-! ## Appending and prepending -/

section Operations

variable [DecidableEq ι] {x : ι}

/-- The node `c` becomes the last child of `p`. -/
def append (L : Links ι) (p c : ι) : Links ι where
  parent := Function.update L.parent c (some p)
  prev := Function.update L.prev c (L.tail p)
  next := setAt (Function.update L.next c none) (L.tail p) (some c)
  head := setUnless L.head (L.tail p) p (some c)
  tail := Function.update L.tail p (some c)

/-- The node `c` becomes the first child of `p`. -/
def prepend (L : Links ι) (p c : ι) : Links ι := (L.flip.append p c).flip

/-- **Appending keeps the lists linked**, whatever lies below the node. -/
theorem Linked.append (h : Linked L children) (hc : L.parent c = none) (p : ι) :
    Linked (L.append p c) (Function.update children p (children p ++ [c])) := by
  have hfresh := h.notMem_of_root hc
  have hself : (L.append p c).parent c = some p := Function.update_self ..
  have hne : ∀ {q x}, x ∈ children q → x ≠ c := fun hx he => hfresh _ (he ▸ hx)
  have hparent : ∀ x, x ≠ c → (L.append p c).parent x = L.parent x := fun x hx =>
    Function.update_of_ne hx _ _
  have hprev : ∀ x, x ≠ c → (L.append p c).prev x = L.prev x := fun x hx =>
    Function.update_of_ne hx _ _
  have hnext : ∀ x, x ≠ c → (children p).getLast? ≠ some x →
      (L.append p c).next x = L.next x := by
    intro x hx hlast
    rw [← h.tail] at hlast
    exact (if_neg hlast).trans (Function.update_of_ne hx _ _)
  have hlast : ∀ x, (children p).getLast? = some x → (L.append p c).next x = some c := by
    intro x hx
    rw [← h.tail] at hx
    exact if_pos hx
  have hchild : (L.append p c).next c = none := by
    have hct : L.tail p ≠ some c := by
      rw [h.tail]
      exact fun hl => hfresh p (List.mem_of_getLast? hl)
    exact (if_neg hct).trans (Function.update_self ..)
  constructor
  case segment =>
    intro q
    by_cases hq : q = p
    · subst hq
      rw [Function.update_self]
      refine segment_append.mpr ⟨?_, ?_, ?_, ?_, trivial⟩
      · exact (h.segment q).retarget (h.nodup q) (fun x hx => hparent x (hne hx))
          (fun x hx => hprev x (hne hx)) (fun x hx hl => hnext x (hne hx) hl) hlast
      · exact Function.update_self ..
      · rw [Option.or_none, ← h.tail]
        exact Function.update_self ..
      · exact hchild
    · rw [Function.update_of_ne hq]
      refine (h.segment q).congr (fun x hx => hparent x (hne hx)) (fun x hx => hprev x (hne hx)) ?_
      intro x hx
      exact hnext x (hne hx) fun hl => hq (h.parent_unique hx (List.mem_of_getLast? hl))
  case head =>
    intro q
    by_cases hq : q = p
    · subst hq
      rw [Function.update_self]
      cases hkids : children q with
      | nil =>
          have ht : L.tail q = none := by rw [h.tail, hkids]; rfl
          exact if_pos ⟨ht, rfl⟩
      | cons a as =>
          have ht : ¬ (L.tail q = none ∧ q = q) := by
            rw [h.tail, hkids]
            simp
          exact (if_neg ht).trans (by rw [h.head, hkids]; rfl)
    · rw [Function.update_of_ne hq]
      exact (if_neg fun hp => hq hp.2).trans (h.head q)
  case tail =>
    intro q
    by_cases hq : q = p
    · subst hq
      rw [Function.update_self, List.getLast?_concat]
      exact Function.update_self ..
    · rw [Function.update_of_ne hq, ← h.tail]
      exact Function.update_of_ne hq _ _
  case mem =>
    intro q x hx
    by_cases hxc : x = c
    · rw [hxc, hself] at hx
      cases hx
      simp [hxc]
    · rw [hparent x hxc] at hx
      by_cases hq : q = p
      · subst hq
        rw [Function.update_self]
        exact List.mem_append_left _ (h.mem q x hx)
      · rw [Function.update_of_ne hq]
        exact h.mem q x hx
  case nodup =>
    intro q
    by_cases hq : q = p
    · subst hq
      rw [Function.update_self, ← List.concat_eq_append]
      exact (h.nodup q).concat (hfresh q)
    · rw [Function.update_of_ne hq]
      exact h.nodup q
  case prev_root =>
    intro x hx
    have hxc : x ≠ c := by
      rintro rfl
      rw [hself] at hx
      cases hx
    rw [hparent x hxc] at hx
    rw [hprev x hxc]
    exact h.prev_root x hx
  case next_root =>
    intro x hx
    have hxc : x ≠ c := by
      rintro rfl
      rw [hself] at hx
      cases hx
    rw [hparent x hxc] at hx
    rw [hnext x hxc fun hl => h.notMem_of_root hx p (List.mem_of_getLast? hl)]
    exact h.next_root x hx

/-- A node that is put in front is the first of the children. -/
theorem Linked.prepend (h : Linked L children) (hc : L.parent c = none) (p : ι) :
    Linked (L.prepend p c) (Function.update children p (c :: children p)) := by
  have hflip := (h.flip.append (c := c) hc p).flip
  have hlists : (fun q => (Function.update (fun q => (children q).reverse) p
      ((children p).reverse ++ [c]) q).reverse) = Function.update children p (c :: children p) := by
    funext q
    by_cases hq : q = p
    · subst hq
      rw [Function.update_self, Function.update_self]
      simp
    · rw [Function.update_of_ne hq, Function.update_of_ne hq, List.reverse_reverse]
  rw [hlists] at hflip
  exact hflip

/-! ## Detaching -/

/-- The node `c` stops being a child of `p`. -/
def detach (L : Links ι) (p c : ι) : Links ι where
  parent := Function.update L.parent c none
  prev := Function.update (setAt L.prev (L.next c) (L.prev c)) c none
  next := Function.update (setAt L.next (L.prev c) (L.next c)) c none
  head := setUnless L.head (L.prev c) p (L.next c)
  tail := setUnless L.tail (L.next c) p (L.prev c)

/-- Only the node before the one taken out has another successor. -/
theorem detach_next (hx : x ≠ c) :
    (L.detach p c).next x = if L.prev c = some x then L.next c else L.next x :=
  Function.update_of_ne hx _ _

/-- Only the node behind it has another predecessor. -/
theorem detach_prev (hx : x ≠ c) :
    (L.detach p c).prev x = if L.next c = some x then L.prev c else L.prev x :=
  Function.update_of_ne hx _ _

/-- **Detaching keeps the lists linked.** -/
theorem Linked.detach (h : Linked L children) (hc : L.parent c = some p) :
    Linked (L.detach p c) (Function.update children p ((children p).erase c)) := by
  obtain ⟨xs, ys, hsplit⟩ := List.append_of_mem (h.mem p c hc)
  obtain ⟨hprev, hnext⟩ := h.siblings hsplit
  have hnodup := h.nodup p
  rw [hsplit] at hnodup
  obtain ⟨hxs, hcys, hdisjoint⟩ := List.nodup_append.mp hnodup
  obtain ⟨hcy, hys⟩ := List.nodup_cons.mp hcys
  have hcx : c ∉ xs := fun hx => hdisjoint c hx c (by simp) rfl
  have herase : (children p).erase c = xs ++ ys := by
    rw [hsplit, List.erase_append_right _ hcx, List.erase_cons_head]
  have hmemx : ∀ x ∈ xs, x ∈ children p := fun x hx => by simp [hsplit, hx]
  have hmemy : ∀ y ∈ ys, y ∈ children p := fun y hy => by simp [hsplit, hy]
  have hparent : ∀ x, x ≠ c → (L.detach p c).parent x = L.parent x := fun x hx =>
    Function.update_of_ne hx _ _
  have hself : (L.detach p c).parent c = none := Function.update_self ..
  have hnext' : ∀ x, x ≠ c → xs.getLast? ≠ some x → (L.detach p c).next x = L.next x :=
    fun x hx hl => (detach_next hx).trans (if_neg (hprev ▸ hl))
  have hprev' : ∀ x, x ≠ c → ys.head? ≠ some x → (L.detach p c).prev x = L.prev x :=
    fun x hx hl => (detach_prev hx).trans (if_neg (hnext ▸ hl))
  have hseg := h.segment p
  rw [hsplit] at hseg
  obtain ⟨hsegx, -, -, -, hsegy⟩ := segment_append.mp hseg
  constructor
  case segment =>
    intro q
    by_cases hq : q = p
    · subst hq
      rw [Function.update_self, herase]
      refine segment_append.mpr ⟨?_, ?_⟩
      · refine hsegx.retarget hxs (fun x hx => hparent x fun he => hcx (he ▸ hx)) ?_ ?_ ?_
        · intro x hx
          refine hprev' x (fun he => hcx (he ▸ hx)) fun hl => ?_
          exact hdisjoint x hx x (by simp [List.mem_of_mem_head? hl]) rfl
        · exact fun x hx hl => hnext' x (fun he => hcx (he ▸ hx)) hl
        · intro x hl
          have hx : x ≠ c := fun he => hcx (he ▸ List.mem_of_getLast? hl)
          rw [detach_next hx, hprev, if_pos hl, hnext, Option.or_none]
      · refine hsegy.retarget_before hys (fun y hy => hparent y fun he => hcy (he ▸ hy)) ?_ ?_ ?_
        · intro y hy
          refine hnext' y (fun he => hcy (he ▸ hy)) fun hl => ?_
          exact hdisjoint y (List.mem_of_getLast? hl) y (by simp [hy]) rfl
        · exact fun y hy hl => hprev' y (fun he => hcy (he ▸ hy)) hl
        · intro y hl
          have hy : y ≠ c := fun he => hcy (he ▸ List.mem_of_mem_head? hl)
          rw [detach_prev hy, hnext, if_pos hl, hprev, Option.or_none]
    · rw [Function.update_of_ne hq]
      refine (h.segment q).congr ?_ ?_ ?_
      all_goals intro x hx
      · exact hparent x fun he => hq (h.parent_unique (he ▸ hx) (h.mem p c hc))
      · refine hprev' x (fun he => hq (h.parent_unique (he ▸ hx) (h.mem p c hc))) fun hl => ?_
        exact hq (h.parent_unique hx (hmemy x (List.mem_of_mem_head? hl)))
      · refine hnext' x (fun he => hq (h.parent_unique (he ▸ hx) (h.mem p c hc))) fun hl => ?_
        exact hq (h.parent_unique hx (hmemx x (List.mem_of_getLast? hl)))
  case head =>
    intro q
    by_cases hq : q = p
    · subst hq
      rw [Function.update_self, herase]
      cases xs with
      | nil => exact (if_pos ⟨hprev, rfl⟩).trans hnext
      | cons a as =>
          have hsome : ¬ (L.prev c = none ∧ q = q) := by
            rw [hprev]
            simp
          exact (if_neg hsome).trans (by rw [h.head, hsplit]; rfl)
    · rw [Function.update_of_ne hq]
      exact (if_neg fun hp => hq hp.2).trans (h.head q)
  case tail =>
    intro q
    by_cases hq : q = p
    · subst hq
      rw [Function.update_self, herase]
      cases ys with
      | nil => exact (if_pos ⟨hnext, rfl⟩).trans (by rw [hprev, List.append_nil])
      | cons a as =>
          have hsome : ¬ (L.next c = none ∧ q = q) := by
            rw [hnext]
            simp
          refine (if_neg hsome).trans ?_
          rw [h.tail, hsplit, List.getLast?_append, List.getLast?_append]
          simp
    · rw [Function.update_of_ne hq]
      exact (if_neg fun hp => hq hp.2).trans (h.tail q)
  case mem =>
    intro q x hx
    have hxc : x ≠ c := by
      rintro rfl
      rw [hself] at hx
      cases hx
    rw [hparent x hxc] at hx
    by_cases hq : q = p
    · subst hq
      rw [Function.update_self]
      exact (List.mem_erase_of_ne hxc).mpr (h.mem q x hx)
    · rw [Function.update_of_ne hq]
      exact h.mem q x hx
  case nodup =>
    intro q
    by_cases hq : q = p
    · subst hq
      rw [Function.update_self]
      exact (h.nodup q).erase c
    · rw [Function.update_of_ne hq]
      exact h.nodup q
  case prev_root =>
    intro x hx
    by_cases hxc : x = c
    · subst hxc
      exact Function.update_self ..
    · rw [hparent x hxc] at hx
      rw [hprev' x hxc fun hl => h.notMem_of_root hx p (hmemy x (List.mem_of_mem_head? hl))]
      exact h.prev_root x hx
  case next_root =>
    intro x hx
    by_cases hxc : x = c
    · subst hxc
      exact Function.update_self ..
    · rw [hparent x hxc] at hx
      rw [hnext' x hxc fun hl => h.notMem_of_root hx p (hmemx x (List.mem_of_getLast? hl))]
      exact h.next_root x hx

end Operations

end Links

end Clib
