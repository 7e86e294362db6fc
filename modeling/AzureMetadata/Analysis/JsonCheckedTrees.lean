import AzureMetadata.Analysis.JsonCheck
import AzureMetadata.Analysis.JsonNodeRuns
import AzureMetadata.Analysis.JsonRoundTrip

/-!
# Checked nodes and their trees

What `json_check` promises is what `json_encode` asserts.
-/

set_option autoImplicit false

namespace AzureMetadata.Analysis

open Clib Clib.Links AzureMetadata.Model AzureMetadata.Model.Nodes AzureMetadata.Interface

variable {double : Type} {f : Forest double} {k n : ℕ}

section Texts

/-- The strings and keys of a tree are Unicode text. -/
def HasTexts (v : JsonTree double) : Prop := ∀ s ∈ strings v, IsText s

/-- The strings of an array are texts where those of its elements are. -/
theorem elementStrings_texts {cs : List ℕ} {vs : List (JsonTree double)}
    (hvs : List.Forall₂ (fun c v => f.tree k c = some v) cs vs) :
    (∀ s ∈ elementStrings vs, IsText s) ↔
      ∀ c ∈ cs, ∃ v, f.tree k c = some v ∧ HasTexts v := by
  induction hvs with
  | nil => simp [elementStrings]
  | @cons c v cs vs hv _ ih =>
      rw [elementStrings, List.forall_mem_append, List.forall_mem_cons, ih]
      refine and_congr_left fun _ => ⟨fun htexts => ⟨v, hv, htexts⟩, ?_⟩
      rintro ⟨w, hw, htexts⟩
      obtain rfl : v = w := Option.some.inj (hv.symm.trans hw)
      exact htexts

/-- Those of an object are where its keys and its values' strings are. -/
theorem memberStrings_texts {cs : List ℕ} {ms : List (CString × JsonTree double)}
    (hms : List.Forall₂ (fun c m => memberAt f k c = some m) cs ms) :
    (∀ s ∈ memberStrings ms, IsText s) ↔
      ∀ c ∈ cs, KeyIsText f c ∧ ∃ v, f.tree k c = some v ∧ HasTexts v := by
  induction hms with
  | nil => simp [memberStrings]
  | @cons c m cs ms hm _ ih =>
      obtain ⟨key, v⟩ := m
      obtain ⟨hkey, hv⟩ := memberAt_eq_some.mp hm
      have hkeyText : KeyIsText f c ↔ IsText key := by
        rw [KeyIsText, hkey]
        simp
      rw [memberStrings, List.forall_mem_cons, List.forall_mem_append, List.forall_mem_cons, ih,
        hkeyText, ← and_assoc]
      refine and_congr_left fun _ => and_congr_right fun _ => ⟨fun htexts => ⟨v, hv, htexts⟩, ?_⟩
      rintro ⟨w, hw, htexts⟩
      obtain rfl : v = w := Option.some.inj (hv.symm.trans hw)
      exact htexts

/-- A list of which every element has a partner has a list of partners. -/
theorem exists_forall₂ {α β : Type} {R : α → β → Prop} {l : List α} (h : ∀ a ∈ l, ∃ b, R a b) :
    ∃ bs, List.Forall₂ R l bs := by
  induction l with
  | nil => exact ⟨[], .nil⟩
  | cons a l ih =>
      obtain ⟨b, hb⟩ := h a (by simp)
      obtain ⟨bs, hbs⟩ := ih fun a ha => h a (by simp [ha])
      exact ⟨b :: bs, .cons hb hbs⟩

/-- **What is checked of a node is checked of its tree.** -/
theorem checked_iff (h : f.Sound) : Checked f k n ↔
    KeyIsText f n ∧ ∃ v, f.tree k n = some v ∧ HasTexts v := by
  induction k generalizing n with
  | zero => simp [Checked, Height, Forest.tree]
  | succ k ih =>
      rw [checked_succ]
      refine and_congr_right fun _ => ?_
      cases hcontent : f.content n with
      | JSON_ARRAY =>
          have hstring : StringIsText f n := by simp [StringIsText, hcontent]
          have hkids : (∀ c ∈ f.children n, Checked f k c) ↔
              ∀ c ∈ f.children n, ∃ v, f.tree k c = some v ∧ HasTexts v := by
            refine forall₂_congr fun c hc => ?_
            have hnone := h.element n c hc (by rw [hcontent]; rfl)
            rw [ih, KeyIsText, hnone]
            simp
          rw [and_iff_right hstring, hkids]
          constructor
          · intro hall
            obtain ⟨vs, hvs⟩ := exists_forall₂ fun c hc => (hall c hc).imp fun v hv => hv.1
            exact ⟨.JSON_ARRAY vs, tree_eq_array.mpr ⟨hcontent, hvs⟩,
              (elementStrings_texts hvs).mpr hall⟩
          · rintro ⟨v, hv, htexts⟩
            rw [tree_array hcontent, Option.map_eq_some_iff] at hv
            obtain ⟨vs, hvs, rfl⟩ := hv
            exact (elementStrings_texts (mapM_eq_some.mp hvs)).mp htexts
      | JSON_OBJECT =>
          have hstring : StringIsText f n := by simp [StringIsText, hcontent]
          have hkids : (∀ c ∈ f.children n, Checked f k c) ↔
              ∀ c ∈ f.children n, KeyIsText f c ∧ ∃ v, f.tree k c = some v ∧ HasTexts v :=
            forall₂_congr fun c hc => ih
          rw [and_iff_right hstring, hkids]
          constructor
          · intro hall
            obtain ⟨ms, hms⟩ : ∃ ms, List.Forall₂ (fun c m => memberAt f k c = some m)
                (f.children n) ms := by
              refine exists_forall₂ fun c hc => ?_
              obtain ⟨-, v, hv, -⟩ := hall c hc
              obtain ⟨key, hkey⟩ := Option.isSome_iff_exists.mp
                (h.member n c hc (by rw [hcontent]; rfl))
              exact ⟨(key, v), memberAt_eq_some.mpr ⟨hkey, hv⟩⟩
            exact ⟨.JSON_OBJECT ms, tree_eq_object.mpr ⟨hcontent, hms⟩,
              (memberStrings_texts hms).mpr hall⟩
          · rintro ⟨v, hv, htexts⟩
            rw [tree_object hcontent, Option.map_eq_some_iff] at hv
            obtain ⟨ms, hms, rfl⟩ := hv
            exact (memberStrings_texts (mapM_eq_some.mp hms)).mp htexts
      | JSON_STRING s =>
          rw [children_leaf h (by simp [hcontent, JsonContent.tag])
            (by simp [hcontent, JsonContent.tag])]
          simp [StringIsText, Forest.tree, hcontent, HasTexts, strings]
      | _ =>
          rw [children_leaf h (by simp [hcontent, JsonContent.tag])
            (by simp [hcontent, JsonContent.tag])]
          simp [StringIsText, Forest.tree, hcontent, HasTexts, strings]

end Texts

end AzureMetadata.Analysis
