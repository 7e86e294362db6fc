import AzureMetadata.Analysis.JsonNodeLookup
import AzureMetadata.Analysis.JsonUtf8

/-!
# What `json_check` finds

Of nodes that were made and linked by calls, `json_check` returns true exactly if the node
is the root of a tree that the stack has room for and all strings and keys in it are
Unicode; most of the problems it looks for cannot occur.
-/

set_option autoImplicit false

namespace AzureMetadata.Analysis

open Clib Clib.Links AzureMetadata.Model AzureMetadata.Model.Nodes AzureMetadata.Interface

variable {double : Type} {f : Forest double} {st : JsonNodes double} {n m c k frames rounds : ℕ}

/-! ## What is checked -/

section Checked

/-- The key of a node is Unicode text. -/
def KeyIsText (f : Forest double) (n : ℕ) : Prop := ∀ key ∈ f.key n, IsText key

/-- The string of a node is Unicode text. -/
def StringIsText (f : Forest double) (n : ℕ) : Prop := ∀ s, f.content n = .JSON_STRING s → IsText s

/-- No more than so many nodes are below each other, and what is below has only Unicode. -/
def Checked (f : Forest double) (frames n : ℕ) : Prop :=
  Height f.children frames n ∧ ∀ m, Below f.children n m → KeyIsText f m ∧ StringIsText f m

/-- What `json_check` may say of a node. -/
def Complaint (f : Forest double) (n : ℕ) (problem : String) : Prop :=
  ∃ m, Below f.children n m ∧
    (problem = "key contains invalid UTF-8" ∧ ¬ KeyIsText f m ∨
      problem = "string_ contains invalid UTF-8" ∧ ¬ StringIsText f m ∨
        problem = "node is its own child" ∧ m ∈ f.children m)

/-- The answer of `json_check` to whether `good` holds of a node. -/
def Answers (f : Forest double) (n : ℕ) (good : Prop) : Option String → Prop
  | none => good
  | some problem => Complaint f n problem

/-- The same for the loop, which returns the last child. -/
def LoopAnswers (f : Forest double) (n : ℕ) (good : Prop) : Except String Ptr → Prop
  | .ok last => last = (f.children n).getLast? ∧ good
  | .error problem => Complaint f n problem

/-- A node is checked with its key, its string and its children. -/
theorem checked_succ : Checked f (frames + 1) n ↔
    KeyIsText f n ∧ StringIsText f n ∧ ∀ c ∈ f.children n, Checked f frames c := by
  constructor
  · rintro ⟨hheight, htext⟩
    refine ⟨(htext n below_self).1, (htext n below_self).2, fun c hc => ⟨hheight c hc, ?_⟩⟩
    exact fun m hm => htext m (Below.of_child hc hm)
  · rintro ⟨hkey, hstring, hkids⟩
    refine ⟨fun c hc => (hkids c hc).1, fun m hm => ?_⟩
    rcases hm.cases_head with rfl | ⟨c, hc, hm⟩
    · exact ⟨hkey, hstring⟩
    · exact (hkids c hc).2 m hm

/-- What is below a node of bounded height has a bounded height. -/
theorem Height.below {children : ℕ → List ℕ} (h : Height children k n)
    (hm : Below children n m) : ∃ l, Height children l m := by
  induction hm with
  | refl => exact ⟨k, h⟩
  | tail _ hm ih =>
      obtain ⟨l, hl⟩ := ih
      cases l with
      | zero => exact hl.elim
      | succ l => exact ⟨l, hl _ hm⟩

/-- A complaint has a reason. -/
theorem Complaint.not_checked {problem : String} (h : Complaint f n problem) :
    ¬ Checked f frames n := by
  rintro ⟨hheight, htext⟩
  obtain ⟨m, hm, ⟨-, hkey⟩ | ⟨-, hstring⟩ | ⟨-, hself⟩⟩ := h
  · exact hkey (htext m hm).1
  · exact hstring (htext m hm).2
  · obtain ⟨l, hl⟩ := Height.below hheight hm
    exact hl.notBelow hself below_self

/-- A complaint about a child is one about the node. -/
theorem Complaint.of_child {problem : String} (hc : c ∈ f.children n)
    (h : Complaint f c problem) : Complaint f n problem := by
  obtain ⟨m, hm, hproblem⟩ := h
  exact ⟨m, Below.of_child hc hm, hproblem⟩

end Checked

/-! ## The loop and the recursion -/

section Check

/-- The strings are tested for their encoding, and no node changes. -/
theorem invalidUtf8_run (st : JsonNodes double) (str : CString) :
    ∃ invalid, (invalidUtf8 str).run st = .ok (invalid, st) ∧ (invalid = true ↔ ¬ IsText str) := by
  obtain ⟨valid, hvalid, hiff⟩ := utf8Validate_iff str
  refine ⟨!valid, ?_, ?_⟩
  · unfold invalidUtf8
    rw [hvalid]
    rfl
  · rw [Bool.not_eq_true', Bool.eq_false_iff, Ne, hiff]
    rfl

/-- So is the key of a node. -/
theorem keyInvalid_run (h : Describes st f) (hn : st.live n = true) : ∃ invalid,
    (keyInvalid (some n)).run st = .ok (invalid, st) ∧ (invalid = true ↔ ¬ KeyIsText f n) := by
  unfold keyInvalid KeyIsText
  rw [run_load_bind hn, h.key]
  cases f.key n with
  | none => exact ⟨false, rfl, by simp⟩
  | some key =>
      obtain ⟨invalid, hrun, hiff⟩ := invalidUtf8_run st key
      exact ⟨invalid, hrun, by simpa using hiff⟩

/-- The links of a child pass all tests. -/
theorem links_pass (h : Describes st f) {xs ys : List ℕ} (hsplit : f.children n = xs ++ c :: ys) :
    ys.head? ≠ some c ∧ ys.head? ≠ (f.children n).head? ∧ getParent st c = some n ∧
      (notBackTo (some c) ys.head?).run st = .ok (false, st) := by
  have hnodup := h.linked.nodup n
  rw [hsplit] at hnodup
  obtain ⟨-, hcys, hdisjoint⟩ := List.nodup_append.mp hnodup
  have hc : c ∉ ys := (List.nodup_cons.mp hcys).1
  refine ⟨fun he => hc (List.mem_of_mem_head? he), fun he => ?_, ?_, ?_⟩
  · cases hys : ys.head? with
    | none => rw [hys, hsplit] at he; simp at he
    | some d =>
        have hd : d ∈ ys := List.mem_of_mem_head? hys
        rw [hys, hsplit, List.head?_append] at he
        cases hxs : xs.head? with
        | none =>
            rw [hxs] at he
            exact hc ((Option.some.inj he) ▸ hd)
        | some x =>
            rw [hxs] at he
            obtain rfl : d = x := Option.some.inj he
            exact hdisjoint d (List.mem_of_mem_head? hxs) d (by simp [hd]) rfl
  · exact h.linked.parent_iff.mpr (by simp [hsplit])
  · cases ys with
    | nil => rfl
    | cons d ys =>
        have hsplit' : f.children n = (xs ++ [c]) ++ d :: ys := by simp [hsplit]
        have hprev : getPrev st d = some c := by
          rw [getPrev, (h.linked.siblings hsplit').1, List.getLast?_concat]
        rw [List.head?_cons, notBackTo, if_neg (Option.some_ne_none d),
          run_load_bind (next_of_split h hsplit').1, hprev]
        simp

/-- What a call of `json_check` does. -/
def Checks (st : JsonNodes double) (f : Forest double) (frames : ℕ)
    (check : Ptr → NodeCall double (Option String)) : Prop :=
  ∀ n, f.live n = true →
    Yields (fun e => e = .stackOverflow ∧ ¬ Height f.children frames n) ((check (some n)).run st)
      fun r => r.2 = st ∧ Answers f n (Checked f frames n) r.1

/-- What the loop does. -/
theorem checkChildren_yields (h : Describes st f) {check : Ptr → NodeCall double (Option String)}
    (hcheck : Checks st f frames check) {xs ys : List ℕ} (hsplit : f.children n = xs ++ ys)
    (hrounds : ys.length ≤ rounds) :
    Yields (fun e => e = .stackOverflow ∧ ∃ c ∈ f.children n, ¬ Height f.children frames c)
      ((checkChildren check (some n) (f.children n).head? (f.content n).tag rounds ys.head?
        xs.getLast?).run st) fun r =>
          r.2 = st ∧ LoopAnswers f n (∀ c ∈ ys, Checked f frames c) r.1 := by
  induction ys generalizing xs rounds with
  | nil =>
      have hlast : xs.getLast? = (f.children n).getLast? := by rw [hsplit, List.append_nil]
      cases rounds with
      | zero => exact ⟨rfl, hlast, fun c hc => nomatch hc⟩
      | succ rounds => exact ⟨rfl, hlast, fun c hc => nomatch hc⟩
  | cons c ys ih =>
      cases rounds with
      | zero => simp at hrounds
      | succ rounds =>
          obtain ⟨hlive, hnext⟩ := next_of_split h hsplit
          have hc : c ∈ f.children n := by simp [hsplit]
          rw [List.head?_cons, checkChildren, run_load_bind hlive, hnext]
          by_cases hself : c = n
          · rw [if_pos (congrArg some hself)]
            exact ⟨rfl, n, below_self, .inr (.inr ⟨rfl, hself ▸ hc⟩)⟩
          · obtain ⟨hcycle, hhead, hparent, hback⟩ := links_pass h hsplit
            have hkey : ¬ ((f.content n).tag = .JSON_ARRAY ∧ f.key c ≠ none) := fun hand =>
              hand.2 (h.sound.element n c hc hand.1)
            have hkey' : ¬ ((f.content n).tag = .JSON_OBJECT ∧ f.key c = none) := by
              rintro ⟨htag, hnone⟩
              have hsome := h.sound.member n c hc htag
              rw [hnone] at hsome
              cases hsome
            rw [if_neg fun he => hself (Option.some.inj he), if_neg hcycle, if_neg hhead,
              run_load_bind hlive, hparent, if_neg (not_not.mpr rfl), run_bind_ok hback,
              if_neg Bool.false_ne_true, run_load_bind hlive, h.key, if_neg hkey, if_neg hkey',
              StateT.run_bind]
            refine ((hcheck c (h.live_iff.symm.trans hlive)).allow ?_).bind ?_
            · exact fun e he => ⟨he.1, c, hc, he.2⟩
            · rintro ⟨answer, st'⟩ ⟨hst, hanswer⟩
              obtain rfl : st' = st := hst
              cases answer with
              | some problem => exact ⟨rfl, Complaint.of_child hc hanswer⟩
              | none =>
                  have hsplit' : f.children n = (xs ++ [c]) ++ ys := by simp [hsplit]
                  have hloop := ih hsplit' (by simpa using hrounds)
                  rw [List.getLast?_concat] at hloop
                  refine hloop.mono ?_
                  rintro ⟨result, st'⟩ ⟨hst, hresult⟩
                  refine ⟨hst, ?_⟩
                  cases result with
                  | error problem => exact hresult
                  | ok last => exact ⟨hresult.1, List.forall_mem_cons.mpr ⟨hanswer, hresult.2⟩⟩

/-- The branch for arrays and objects. -/
theorem checkContainer_yields (h : Describes st f)
    {check : Ptr → NodeCall double (Option String)} (hcheck : Checks st f frames check)
    (hn : f.live n = true) :
    Yields (fun e => e = .stackOverflow ∧ ∃ c ∈ f.children n, ¬ Height f.children frames c)
      ((jsonCheck.checkContainer check (some n) (f.content n).tag).run st) fun r =>
        r.2 = st ∧ Answers f n (∀ c ∈ f.children n, Checked f frames c) r.1 := by
  have hlive := h.live_iff.trans hn
  have hhead : getHead st n = (f.children n).head? := h.linked.head n
  have htail : getTail st n = (f.children n).getLast? := h.linked.tail n
  unfold jsonCheck.checkContainer
  rw [run_load_bind hlive, run_load_bind hlive, hhead, htail]
  cases hkids : f.children n with
  | nil => exact ⟨rfl, fun c hc => nomatch hc⟩
  | cons c cs =>
      have hsplit : f.children n = [] ++ c :: cs := hkids
      have hprev : getPrev st c = none := (h.linked.siblings hsplit).1
      have hlast : (c :: cs).getLast? ≠ none := by simp
      rw [if_neg fun hor => hor.elim (by simp) hlast, List.head?_cons,
        run_load_bind (next_of_split h hsplit).1, hprev, if_neg (not_not.mpr rfl)]
      have hloop := checkChildren_yields (n := n) h hcheck (List.nil_append _).symm
        (length_le_count h n)
      rw [hkids, List.head?_cons] at hloop
      rw [run_get_bind]
      refine yields_run_bind (P := fun result st' => st' = st ∧
        LoopAnswers f n (∀ d ∈ c :: cs, Checked f frames d) result) hloop ?_
      rintro result _ ⟨rfl, hresult⟩
      cases result with
      | error problem => exact ⟨rfl, hresult⟩
      | ok last =>
          obtain ⟨hlast, hchecked⟩ := hresult
          rw [hkids] at hlast
          dsimp only
          rw [if_neg (not_not.mpr hlast)]
          exact ⟨rfl, hchecked⟩

/-- **What `json_check` does.** -/
theorem jsonCheck_yields (h : Describes st f) (frames : ℕ) :
    Checks st f frames fun node => jsonCheck frames node := by
  induction frames with
  | zero => exact fun n _ => ⟨rfl, id⟩
  | succ frames ih =>
      intro n hn
      have hlive := h.live_iff.trans hn
      obtain ⟨invalid, hkey, hinvalid⟩ := keyInvalid_run h hlive
      beta_reduce
      rw [jsonCheck, run_bind_ok hkey]
      cases invalid with
      | true => exact ⟨rfl, n, below_self, .inl ⟨rfl, hinvalid.mp rfl⟩⟩
      | false =>
          have hkeyText : KeyIsText f n := by
            by_contra hno
            cases hinvalid.mpr hno
          have hcontainer := checkContainer_yields h ih hn
          have hchildren : ∀ {answer}, StringIsText f n →
              Answers f n (∀ c ∈ f.children n, Checked f frames c) answer →
                Answers f n (Checked f (frames + 1) n) answer := by
            intro answer hstring hanswer
            cases answer with
            | none => exact checked_succ.mpr ⟨hkeyText, hstring, hanswer⟩
            | some problem => exact hanswer
          have hleaf : (f.content n).tag ≠ .JSON_ARRAY → (f.content n).tag ≠ .JSON_OBJECT →
              StringIsText f n → Checked f (frames + 1) n := by
            intro harray hobject hstring
            refine checked_succ.mpr ⟨hkeyText, hstring, ?_⟩
            rw [children_leaf h.sound harray hobject]
            exact fun c hc => nomatch hc
          rw [if_neg Bool.false_ne_true, run_load_bind hlive, h.content]
          cases hcontent : f.content n with
          | JSON_STRING s =>
              obtain ⟨invalid, hrun, hiff⟩ := invalidUtf8_run st s
              have hstring : StringIsText f n ↔ IsText s := by
                unfold StringIsText
                rw [hcontent]
                refine ⟨fun hall => hall s rfl, fun hs s' he => ?_⟩
                exact JsonContent.JSON_STRING.inj he ▸ hs
              refine (Yields.of_eq (run_bind_ok hrun _)) ?_
              cases invalid with
              | true =>
                  refine ⟨rfl, n, below_self, .inr (.inl ⟨rfl, ?_⟩)⟩
                  rw [hstring]
                  exact hiff.mp rfl
              | false =>
                  refine ⟨rfl, hleaf (by simp [hcontent, JsonContent.tag])
                    (by simp [hcontent, JsonContent.tag]) (hstring.mpr ?_)⟩
                  by_contra hno
                  cases hiff.mpr hno
          | JSON_ARRAY =>
              rw [hcontent] at hcontainer
              refine (hcontainer.allow ?_).mono fun r hr => ⟨hr.1, hchildren ?_ hr.2⟩
              · exact fun e he => ⟨he.1, fun hfits => he.2.elim fun c hc => hc.2 (hfits c hc.1)⟩
              · simp [StringIsText, hcontent]
          | JSON_OBJECT =>
              rw [hcontent] at hcontainer
              refine (hcontainer.allow ?_).mono fun r hr => ⟨hr.1, hchildren ?_ hr.2⟩
              · exact fun e he => ⟨he.1, fun hfits => he.2.elim fun c hc => hc.2 (hfits c hc.1)⟩
              · simp [StringIsText, hcontent]
          | _ =>
              refine ⟨rfl, hleaf ?_ ?_ ?_⟩
              all_goals simp [hcontent, JsonContent.tag, StringIsText]

end Check

end AzureMetadata.Analysis
