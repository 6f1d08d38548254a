import Mathlib.Data.List.Sort
import ComplianceIntake.Text.Order

/-!
# Ascending lists of texts

The order of texts is the lexicographic order of their octets, which is total,
and no two texts have the same octets. An ascending list of texts is therefore
determined by its members, so lists of labels that agree as sets have the same
normal form.
-/

set_option autoImplicit false

namespace ComplianceIntake.Text

theorem octets_injective (s t : String) (h : octets s = octets t) : s = t := by
  apply String.toByteArray_inj.mp
  have hd : s.toByteArray.data = t.toByteArray.data := Array.toList_inj.mp h
  exact ByteArray.ext hd

theorem at_most_trans (s t u : String) (hst : atMost s t) (htu : atMost t u) : atMost s u := by
  simp only [atMost, decide_eq_true_eq] at *
  exact List.le_trans hst htu

theorem at_most_total (s t : String) : atMost s t || atMost t s := by
  simp only [atMost, Bool.or_eq_true, decide_eq_true_eq]
  exact List.le_total _ _

theorem below_of_at_most (s t : String) (h : atMost s t) (hne : s ≠ t) : below s t := by
  simp only [atMost, below, decide_eq_true_eq] at *
  rcases List.le_iff_lt_or_eq.mp h with hlt | heq
  · exact hlt
  · exact absurd (octets_injective s t heq) hne

theorem below_irrefl (s : String) : ¬ below s s := by
  simp [below]

theorem below_asymm (s t : String) (hst : below s t) : ¬ below t s := by
  simp only [below, decide_eq_true_eq] at *
  exact List.lt_asymm hst

theorem below_of_below_of_at_most (s t u : String) (hst : below s t) (htu : atMost t u) :
    below s u := by
  simp only [atMost, below, decide_eq_true_eq] at *
  by_contra hsu
  exact htu (List.lt_of_le_of_lt hsu hst)

/-- Dropping repeats turns an order that allows equals into a strict one. -/
theorem pairwise_drop_repeats (texts : List String) (h : texts.Pairwise (atMost · ·)) :
    (dropRepeats texts).Pairwise (below · ·) := by
  induction texts with
  | nil => simp [dropRepeats]
  | cons s rest ih =>
    obtain ⟨hs,hrest⟩ := List.pairwise_cons.mp h
    cases rest with
    | nil => simp [dropRepeats]
    | cons t rest =>
      by_cases hst : s = t
      · rw [dropRepeats, if_pos hst]
        exact ih hrest
      · rw [dropRepeats, if_neg hst, List.pairwise_cons]
        refine ⟨?_,ih hrest⟩
        intro u hu
        have ht : below s t := below_of_at_most s t (hs t (by simp)) hst
        rcases List.mem_cons.mp ((mem_drop_repeats u _).mp hu) with rfl | hu
        · exact ht
        · exact below_of_below_of_at_most s t u ht ((List.pairwise_cons.mp hrest).1 u hu)

theorem pairwise_ascending (texts : List String) : (ascending texts).Pairwise (below · ·) :=
  pairwise_drop_repeats _ (List.pairwise_mergeSort at_most_trans at_most_total texts)

/-- Two strictly ordered lists with the same members are one list. -/
theorem eq_of_pairwise_below (ss ts : List String) (hs : ss.Pairwise (below · ·))
    (ht : ts.Pairwise (below · ·)) (h : ∀ s, s ∈ ss ↔ s ∈ ts) : ss = ts := by
  have : Std.Irrefl (fun s t : String => (below s t : Prop)) := ⟨below_irrefl⟩
  have : Std.Antisymm (fun s t : String => (below s t : Prop)) :=
    ⟨fun s t hst hts => absurd hts (below_asymm s t hst)⟩
  exact hs.eq_of_mem_iff ht h

end ComplianceIntake.Text
