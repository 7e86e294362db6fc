import AzureMetadata.Analysis.JsonForest
import AzureMetadata.Interface.JsonValues

/-!
# The trees of a forest

The tree at a node exists if the node is not below itself, and the calls that link a node
to an array or an object do to the trees what a list does when something is added to it.
-/

set_option autoImplicit false

namespace AzureMetadata.Analysis

open Clib Clib.Links AzureMetadata.Model AzureMetadata.Model.Nodes AzureMetadata.Interface

/-! ## Lists of options -/

section Collect

variable {α β : Type} {g g' : α → Option β} {l : List α} {bs : List β}

/-- A list is mapped if each element is. -/
theorem mapM_eq_some : l.mapM g = some bs ↔ List.Forall₂ (fun a b => g a = some b) l bs := by
  induction l generalizing bs with
  | nil => simp [eq_comm]
  | cons a l ih =>
      rw [List.mapM_cons, List.forall₂_cons_left_iff]
      simp only [Option.bind_eq_bind, Option.bind_eq_some_iff, ih, Option.pure_def,
        Option.some.injEq]
      constructor
      · rintro ⟨b, hb, bs', hbs, rfl⟩
        exact ⟨b, bs', hb, hbs, rfl⟩
      · rintro ⟨b, bs', hb, hbs, rfl⟩
        exact ⟨b, hb, bs', hbs, rfl⟩

/-- So it is not mapped only where an element is not. -/
theorem mapM_ne_none : l.mapM g ≠ none ↔ ∀ a ∈ l, g a ≠ none := by
  induction l with
  | nil => simp
  | cons a l ih =>
      rw [List.mapM_cons, List.forall_mem_cons, ← ih]
      cases g a with
      | none => simp
      | some b =>
          cases l.mapM g with
          | none => simp
          | some bs => simp

/-- Maps that agree on the list agree. -/
theorem mapM_congr (h : ∀ a ∈ l, g a = g' a) : l.mapM g = l.mapM g' := by
  induction l with
  | nil => rfl
  | cons a l ih =>
      rw [List.mapM_cons, List.mapM_cons, h a (by simp), ih fun b hb => h b (by simp [hb])]

end Collect

variable {double : Type} {f f' : Forest double} {st : JsonNodes double} {k n m p c : ℕ}
  {v w : JsonTree double}

/-! ## The tree at a node -/

section Tree

/-- The value of a member, with its key. -/
def memberAt (f : Forest double) (k c : ℕ) : Option (CString × JsonTree double) := do
  return (← f.key c, ← f.tree k c)

/-- A member is a key and a tree. -/
theorem memberAt_eq_some {key : CString} :
    memberAt f k c = some (key, v) ↔ f.key c = some key ∧ f.tree k c = some v := by
  unfold memberAt
  cases f.key c with
  | none => simp
  | some key' =>
      cases f.tree k c with
      | none => simp
      | some w => simp

/-- The tree of an array has those of its children. -/
theorem tree_array (h : f.content n = .JSON_ARRAY) :
    f.tree (k + 1) n = ((f.children n).mapM fun c => f.tree k c).map .JSON_ARRAY := by
  rw [Forest.tree, h]

/-- That of an object has them with their keys. -/
theorem tree_object (h : f.content n = .JSON_OBJECT) :
    f.tree (k + 1) n = ((f.children n).mapM fun c => memberAt f k c).map .JSON_OBJECT := by
  rw [Forest.tree, h]
  rfl

/-- The node of an array with children that have the trees. -/
theorem tree_eq_array {vs : List (JsonTree double)} :
    f.tree (k + 1) n = some (.JSON_ARRAY vs) ↔ f.content n = .JSON_ARRAY ∧
      List.Forall₂ (fun c v => f.tree k c = some v) (f.children n) vs := by
  constructor
  · intro h
    have hn : f.content n = .JSON_ARRAY := by
      rw [Forest.tree] at h
      cases hcontent : f.content n with
      | JSON_ARRAY => rfl
      | _ => rw [hcontent] at h; simp at h
    rw [tree_array hn, Option.map_eq_some_iff] at h
    obtain ⟨_, hvs, ⟨⟩⟩ := h
    exact ⟨hn, mapM_eq_some.mp hvs⟩
  · rintro ⟨hn, hvs⟩
    rw [tree_array hn, mapM_eq_some.mpr hvs]
    rfl

/-- The node of an object with children that are the members. -/
theorem tree_eq_object {ms : List (CString × JsonTree double)} :
    f.tree (k + 1) n = some (.JSON_OBJECT ms) ↔ f.content n = .JSON_OBJECT ∧
      List.Forall₂ (fun c m => memberAt f k c = some m) (f.children n) ms := by
  constructor
  · intro h
    have hn : f.content n = .JSON_OBJECT := by
      rw [Forest.tree] at h
      cases hcontent : f.content n with
      | JSON_OBJECT => rfl
      | _ => rw [hcontent] at h; simp at h
    rw [tree_object hn, Option.map_eq_some_iff] at h
    obtain ⟨_, hms, ⟨⟩⟩ := h
    exact ⟨hn, mapM_eq_some.mp hms⟩
  · rintro ⟨hn, hms⟩
    rw [tree_object hn, mapM_eq_some.mpr hms]
    rfl

/-- The nodes without children. -/
theorem tree_leaf (h : (f.content n).tag ≠ .JSON_ARRAY) (h' : (f.content n).tag ≠ .JSON_OBJECT)
    (k : ℕ) : f.tree (k + 1) n ≠ none := by
  rw [Forest.tree]
  cases hcontent : f.content n with
  | JSON_NULL => simp
  | JSON_BOOL b => simp
  | JSON_STRING s => simp
  | JSON_NUMBER x => simp
  | JSON_ARRAY => rw [hcontent] at h; exact absurd rfl h
  | JSON_OBJECT => rw [hcontent] at h'; exact absurd rfl h'

/-- An array is known by its tag. -/
theorem eq_array (h : (f.content n).tag = .JSON_ARRAY) : f.content n = .JSON_ARRAY := by
  cases hcontent : f.content n <;> rw [hcontent] at h <;> first | rfl | cases h

/-- So is an object. -/
theorem eq_object (h : (f.content n).tag = .JSON_OBJECT) : f.content n = .JSON_OBJECT := by
  cases hcontent : f.content n <;> rw [hcontent] at h <;> first | rfl | cases h

/-- **A node has a tree exactly if no more nodes than that are below each other.** -/
theorem tree_ne_none (h : f.Sound) : f.tree k n ≠ none ↔ Height f.children k n := by
  induction k generalizing n with
  | zero => simp [Forest.tree, Height]
  | succ k ih =>
      rw [Height]
      by_cases harray : (f.content n).tag = .JSON_ARRAY
      · rw [tree_array (eq_array harray), Ne, Option.map_eq_none_iff, ← Ne, mapM_ne_none]
        exact forall₂_congr fun c _ => ih
      · by_cases hobject : (f.content n).tag = .JSON_OBJECT
        · rw [tree_object (eq_object hobject), Ne, Option.map_eq_none_iff, ← Ne, mapM_ne_none]
          refine forall₂_congr fun c hc => ?_
          obtain ⟨key, hkey⟩ := Option.isSome_iff_exists.mp (h.member n c hc hobject)
          rw [← ih, memberAt, hkey]
          cases f.tree k c with
          | none => simp
          | some w => simp
        · rw [children_leaf h harray hobject]
          exact iff_of_true (tree_leaf harray hobject k) fun c hc => absurd hc List.not_mem_nil

/-- A tree is about the nodes below its node. -/
theorem tree_congr (hbelow : ∀ m, Below f.children n m → f'.content m = f.content m ∧
    f'.children m = f.children m ∧ ∀ d ∈ f.children m, f'.key d = f.key d) :
    f'.tree k n = f.tree k n := by
  induction k generalizing n with
  | zero => rfl
  | succ k ih =>
      obtain ⟨hcontent, hkids, hkeys⟩ := hbelow n below_self
      have htree : ∀ d ∈ f.children n, f'.tree k d = f.tree k d := fun d hd =>
        ih fun m hm => hbelow m (Below.of_child hd hm)
      have hmember : ∀ d ∈ f.children n, memberAt f' k d = memberAt f k d := fun d hd => by
        rw [memberAt, memberAt, htree d hd, hkeys d hd]
      by_cases harray : (f.content n).tag = .JSON_ARRAY
      · have hn := eq_array harray
        rw [tree_array hn, tree_array (hcontent.trans hn), hkids, mapM_congr htree]
      · by_cases hobject : (f.content n).tag = .JSON_OBJECT
        · have hn := eq_object hobject
          rw [tree_object hn, tree_object (hcontent.trans hn), hkids, mapM_congr hmember]
        · rw [Forest.tree, Forest.tree, hcontent]
          cases hn : f.content n with
          | JSON_ARRAY => exact absurd (congrArg JsonContent.tag hn) harray
          | JSON_OBJECT => exact absurd (congrArg JsonContent.tag hn) hobject
          | _ => rfl

end Tree

/-! ## Linking -/

section Linking

variable {key : Option CString} {cs : List ℕ}

/-- Linking a root to `p` changes no tree that `p` is not in. -/
theorem tree_link (hroot : Root f.children c) (hp : ¬ Below f.children n p) :
    (f.link p c key cs).tree k n = f.tree k n := by
  refine tree_congr fun m hm => ⟨rfl, ?_, fun d hd => ?_⟩
  · refine Function.update_of_ne ?_ _ _
    rintro rfl
    exact hp hm
  · refine Function.update_of_ne ?_ _ _
    rintro rfl
    exact hroot m hd

/-- The children of `p` keep their trees when a root is linked to `p`. -/
theorem tree_link_child (hsound : f.Sound) (hroot : Root f.children c)
    (hp : f.tree (k + 1) p ≠ none) {d : ℕ} (hd : d ∈ f.children p) :
    (f.link p c key cs).tree k d = f.tree k d :=
  tree_link hroot (((tree_ne_none hsound).mp hp).notBelow hd)

/-- A link above leaves the members that were there. -/
theorem memberAt_link_child (hsound : f.Sound) (hroot : Root f.children c)
    (hp : f.tree (k + 1) p ≠ none) {d : ℕ} (hd : d ∈ f.children p) :
    memberAt (f.link p c key cs) k d = memberAt f k d := by
  have hdc : d ≠ c := by
    rintro rfl
    exact hroot p hd
  have hkey : (f.link p c key cs).key d = f.key d := Function.update_of_ne hdc _ _
  rw [memberAt, memberAt, hkey, tree_link_child hsound hroot hp hd]

/-- The children of the node linked to are those given. -/
theorem children_link : (f.link p c key cs).children p = cs := Function.update_self ..

variable {vs : List (JsonTree double)} {ms : List (CString × JsonTree double)} {name : CString}

/-- An array after a root was linked to it. -/
theorem tree_link_array (hsound : f.Sound) (hroot : Root f.children c)
    (hcycle : ¬ Below f.children c p) (hp : f.tree (k + 1) p = some (.JSON_ARRAY vs))
    (hc : f.tree k c = some w) :
    (f.append p c none).tree (k + 1) p = some (.JSON_ARRAY (vs ++ [w])) ∧
      (f.prepend p c none).tree (k + 1) p = some (.JSON_ARRAY (w :: vs)) := by
  obtain ⟨hcontent, hvs⟩ := tree_eq_array.mp hp
  have hkids : ∀ cs, List.Forall₂ (fun d v => (f.link p c none cs).tree k d = some v)
      (f.children p) vs := by
    intro cs
    rw [← mapM_eq_some] at hvs ⊢
    rw [← hvs]
    exact mapM_congr fun d hd => tree_link_child hsound hroot (by rw [hp]; simp) hd
  have hnew : ∀ cs, (f.link p c none cs).tree k c = some w := fun cs =>
    (tree_link hroot hcycle).trans hc
  refine ⟨tree_eq_array.mpr ⟨hcontent, ?_⟩, tree_eq_array.mpr ⟨hcontent, ?_⟩⟩
  · rw [Forest.append, children_link]
    exact List.rel_append (hkids _) (.cons (hnew _) .nil)
  · rw [Forest.prepend, children_link]
    exact .cons (hnew _) (hkids _)

/-- An object after a root was linked to it. -/
theorem tree_link_object (hsound : f.Sound) (hroot : Root f.children c)
    (hcycle : ¬ Below f.children c p) (hp : f.tree (k + 1) p = some (.JSON_OBJECT ms))
    (hc : f.tree k c = some w) :
    (f.append p c (some name)).tree (k + 1) p = some (.JSON_OBJECT (ms ++ [(name, w)])) ∧
      (f.prepend p c (some name)).tree (k + 1) p = some (.JSON_OBJECT ((name, w) :: ms)) := by
  obtain ⟨hcontent, hms⟩ := tree_eq_object.mp hp
  have hkids : ∀ cs, List.Forall₂ (fun d m => memberAt (f.link p c (some name) cs) k d = some m)
      (f.children p) ms := by
    intro cs
    rw [← mapM_eq_some] at hms ⊢
    rw [← hms]
    exact mapM_congr fun d hd => memberAt_link_child hsound hroot (by rw [hp]; simp) hd
  have hnew : ∀ cs, memberAt (f.link p c (some name) cs) k c = some (name, w) := fun cs =>
    memberAt_eq_some.mpr ⟨Function.update_self .., (tree_link hroot hcycle).trans hc⟩
  refine ⟨tree_eq_object.mpr ⟨hcontent, ?_⟩, tree_eq_object.mpr ⟨hcontent, ?_⟩⟩
  · rw [Forest.append, children_link]
    exact List.rel_append (hkids _) (.cons (hnew _) .nil)
  · rw [Forest.prepend, children_link]
    exact .cons (hnew _) (hkids _)

end Linking

end AzureMetadata.Analysis
