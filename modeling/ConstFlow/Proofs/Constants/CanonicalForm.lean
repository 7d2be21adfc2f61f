import ConstFlow.Constants.History
import ConstFlow.Proofs.Collections.Histories
import ConstFlow.Proofs.Constants.ValuationOrder
import ConstFlow.Proofs.Program.Editing
import Mathlib.Data.Set.Card

/-! # Valuations in canonical form

The undefined value is the absence of an entry, whatever operations have led to it, so that a
valuation stands for a function from variables to values. Its size, its equality and its flags can
all be told from the function. So can its text, if the ids tell variables apart: the entries are
sorted by their ids, which are distinct, so the order in which they are stored is not seen.
-/
namespace ConstFlow

namespace Valuation
variable {f g : Valuation} {x : Variable} {v : Value}

theorem get_of_mem {e : Variable × Value} (he : e ∈ f.entries) : f.get e.1 = e.2 :=
  (get?_eq_some_iff.mp (OrderedMap.get?_of_mem he)).1

theorem exists_entry_of_defined (h : f.get x ≠ .undefined) :
    ∃ e ∈ f.entries, e.1.id = x.id ∧ e.2 = f.get x := by
  obtain ⟨e, he, hex, hv⟩ := OrderedMap.exists_entry (get?_eq_some_iff.mpr ⟨rfl, h⟩)
  exact ⟨e, he, Variable.beq_iff.mp hex, hv⟩

theorem nodup_ids (f : Valuation) : (f.entries.map fun e => e.1.id).Nodup := by
  refine List.pairwise_map.mpr (f.map.distinct.imp fun {a b} hne hid => ?_)
  rw [Variable.beq_iff.mpr hid] at hne
  cases hne

/-- The size is the number of ids that are not undefined. -/
theorem size_eq_ncard (f : Valuation) :
    f.size = {i | ∃ x : Variable, x.id = i ∧ f.get x ≠ .undefined}.ncard := by
  have hids : {i | ∃ x : Variable, x.id = i ∧ f.get x ≠ .undefined} =
      ((f.entries.map fun e => e.1.id).toFinset : Set ℕ) := by
    ext i
    simp only [Set.mem_ofPred_eq, List.coe_toFinset, List.mem_map]
    constructor
    · rintro ⟨x, rfl, hx⟩
      obtain ⟨e, he, hid, _⟩ := exists_entry_of_defined hx
      exact ⟨e, he, hid⟩
    · rintro ⟨e, he, rfl⟩
      exact ⟨e.1, rfl, get_of_mem he ▸ f.defined e he⟩
  rw [hids, Set.ncard_coe_finset, List.toFinset_card_of_nodup f.nodup_ids, List.length_map]
  rfl

theorem update_changed_iff (f : Valuation) (x : Variable) (v : Value) :
    (f.update x v).2 = true ↔ f.get x ≠ v := by
  unfold update
  split
  · rename_i h
    rw [h]
    exact isSome_get?_iff
  · rename_i hv
    have hget : f.map.get? x = some v ↔ f.get x = v := get?_eq_some_iff.trans (and_iff_left hv)
    rw [OrderedMap.update_changed_iff, beq_iff_eq, hget]

theorem get_copyFrom (f source : Valuation) (x : Variable) :
    (f.copyFrom source).1.get x = source.get x := by
  unfold copyFrom
  split
  · rename_i h
    exact (beq_iff_get f source).mp h x
  · rfl

theorem copyFrom_changed_iff (f source : Valuation) :
    (f.copyFrom source).2 = true ↔ ∃ x, f.get x ≠ source.get x := by
  rw [← not_forall, ← beq_iff_get]
  unfold copyFrom
  split
  · rename_i h
    simp [h]
  · rename_i h
    simp [h]

section Text

theorem sortedEntries_perm (f : Valuation) : f.sortedEntries.Perm f.entries :=
  List.mergeSort_perm _ _

/-- Sorted entries ascend strictly, since ids are distinct. -/
theorem pairwise_sortedEntries (f : Valuation) :
    f.sortedEntries.Pairwise fun a b => a.1.id < b.1.id := by
  have hle : f.sortedEntries.Pairwise fun a b => decide (a.1.id ≤ b.1.id) = true := by
    refine List.pairwise_mergeSort (fun a b c hab hbc => ?_) (fun a b => ?_) f.entries
    · rw [decide_eq_true_eq] at hab hbc ⊢
      exact hab.trans hbc
    · rw [Bool.or_eq_true, decide_eq_true_eq, decide_eq_true_eq]
      exact Nat.le_total _ _
  have hne : f.sortedEntries.Pairwise fun a b => a.1.id ≠ b.1.id :=
    List.pairwise_map.mp ((f.sortedEntries_perm.map _).nodup_iff.mpr f.nodup_ids)
  exact hle.imp₂ (fun a b hab h => lt_of_le_of_ne (of_decide_eq_true hab) h) hne

/-- Equal valuations have the same entries if ids tell their variables apart. -/
theorem mem_entries_of_beq (h : (f == g) = true)
    (hid : ∀ e ∈ f.entries, ∀ d ∈ g.entries, e.1.id = d.1.id → e.1 = d.1)
    {e : Variable × Value} (he : e ∈ f.entries) : e ∈ g.entries := by
  have hget : g.get e.1 = e.2 := ((beq_iff_get f g).mp h e.1).symm.trans (get_of_mem he)
  have hdefined : g.get e.1 ≠ .undefined := hget ▸ f.defined e he
  obtain ⟨d, hd, hde, hv⟩ := exists_entry_of_defined hdefined
  -- lookup tells the id of the variable only, the name comes from `hid`
  have hvar : e.1 = d.1 := hid e he d hd hde.symm
  have hed : e = d := Prod.ext hvar (hget.symm.trans hv.symm)
  exact hed ▸ hd

theorem text_eq_of_beq (h : (f == g) = true)
    (hid : ∀ e ∈ f.entries, ∀ d ∈ g.entries, e.1.id = d.1.id → e.1 = d.1) : f.text = g.text := by
  have hnodup : ∀ k : Valuation, k.entries.Nodup := fun k => k.nodup_ids.of_map _
  have hgf : (g == f) = true := (beq_iff_get g f).mpr fun x => ((beq_iff_get f g).mp h x).symm
  have hperm : f.entries.Perm g.entries := by
    refine (List.perm_ext_iff_of_nodup (hnodup f) (hnodup g)).mpr fun e => ⟨?_, ?_⟩
    · exact mem_entries_of_beq h hid
    · exact mem_entries_of_beq hgf fun d hd e he hde => (hid e he d hd hde.symm).symm
  have hsorted : f.sortedEntries = g.sortedEntries := by
    refine List.Perm.eq_of_pairwise (fun a b _ _ hab hba => absurd hab (Nat.lt_asymm hba))
      f.pairwise_sortedEntries g.pairwise_sortedEntries ?_
    exact f.sortedEntries_perm.trans (hperm.trans g.sortedEntries_perm.symm)
  unfold text
  rw [hsorted]

end Text

/-- Entries are defined and have ids of their own, the size counts the ids that are defined, and
the text lists the entries by ascending id. -/
structure Canonical (f : Valuation) : Prop where
  defined : ∀ e ∈ f.entries, e.2 ≠ .undefined
  distinct : (f.entries.map fun e => e.1.id).Nodup
  size_eq : f.size = {i | ∃ x : Variable, x.id = i ∧ f.get x ≠ .undefined}.ncard
  text_eq : ∃ l : List (Variable × Value), l.Perm f.entries ∧
    l.Pairwise (fun a b => a.1.id < b.1.id) ∧
    f.text = "\x7b" ++ ", ".intercalate (l.map fun e => s!"{e.1.name}={e.2.text}") ++ "\x7d"

theorem canonical (f : Valuation) : f.Canonical where
  defined := f.defined
  distinct := f.nodup_ids
  size_eq := f.size_eq_ncard
  text_eq := ⟨f.sortedEntries, f.sortedEntries_perm, f.pairwise_sortedEntries, rfl⟩

end Valuation

namespace ValuationStep

/-- The valuations in the registers after a history. -/
def registers (history : List (String × ValuationStep)) : Registers Valuation :=
  Registers.after (fun rs f step => (step.result rs f).1) .empty history

theorem registers_concat_self {history : List (String × ValuationStep)} {name : String}
    {step : ValuationStep} : registers (history ++ [(name, step)]) name =
      (step.result (registers history) (registers history name)).1 :=
  Registers.after_concat_self

/-- The valuations after a history are in canonical form and equal if they give the same values.
Further updates and copies set the values that they should, and report changes of values. Equal
valuations of the variables of one procedure have one text. -/
structure Faithful (history : List (String × ValuationStep)) : Prop where
  canonical : ∀ name, (registers history name).Canonical
  beq_iff : ∀ a b, (registers history a == registers history b) = true ↔
    ∀ x, (registers history a).get x = (registers history b).get x
  performed : ∀ name (step : ValuationStep),
    (step.perform (registers history) name).1 = registers (history ++ [(name, step)])
  get_update : ∀ name x v, (registers (history ++ [(name, .update x v)]) name).get x = v
  get_update_of_ne : ∀ name x v y, y.id ≠ x.id →
    (registers (history ++ [(name, .update x v)]) name).get y = (registers history name).get y
  reports_update : ∀ name x v, ∃ flag,
    ((update x v).perform (registers history) name).2 = .changed flag ∧
      (flag = true ↔ (registers history name).get x ≠ v)
  get_copyFrom : ∀ name source x,
    (registers (history ++ [(name, .copyFrom source)]) name).get x =
      (registers history source).get x
  reports_copyFrom : ∀ name source, ∃ flag,
    ((copyFrom source).perform (registers history) name).2 = .changed flag ∧
      (flag = true ↔ ∃ x, (registers history name).get x ≠ (registers history source).get x)
  text_eq : ∀ a b title es, (∀ e ∈ (registers history a).entries ++ (registers history b).entries,
    e.1 ∈ ((Procedure.named title).edits es).variables.items) →
      (registers history a == registers history b) = true →
        (registers history a).text = (registers history b).text

/-- Valuations are canonical after every history. -/
theorem valuations_stay_canonical (history : List (String × ValuationStep)) : Faithful history where
  canonical name := (registers history name).canonical
  beq_iff a b := Valuation.beq_iff_get _ _
  performed _ _ := Registers.after_concat.symm
  get_update name x v := by
    rw [registers_concat_self]
    change ((registers history name).update x v).1.get x = v
    rw [Valuation.get_update, if_pos BEq.rfl]
  get_update_of_ne name x v y hne := by
    have hxy : ¬(x == y) = true := fun h => hne (Variable.beq_iff.mp h).symm
    rw [registers_concat_self]
    change ((registers history name).update x v).1.get y = _
    rw [Valuation.get_update, if_neg hxy]
  reports_update name x v := ⟨_, rfl, Valuation.update_changed_iff _ x v⟩
  get_copyFrom name source x := by
    rw [registers_concat_self]
    exact Valuation.get_copyFrom _ _ x
  reports_copyFrom name source := ⟨_, rfl, Valuation.copyFrom_changed_iff _ _⟩
  text_eq a b title es hvars hbeq := by
    refine Valuation.text_eq_of_beq hbeq fun e he d hd hid => ?_
    have he' := hvars e (List.mem_append_left _ he)
    have hd' := hvars d (List.mem_append_right _ hd)
    exact (Procedure.numbersVariables_edits title es).eq_of_id he' hd' hid

/-- Two ways to one valuation, which store the entries in opposite orders: one collects them, the
other transfers a definition and merges. -/
theorem merged_text_is_collected_text :
    let x := Sample.int 0 "x"
    let y := Sample.int 1 "y"
    let history : List (String × ValuationStep) :=
      [("a", .collect [(y, .nac), (x, .constant 1)]),
        ("b", .transfer (.define ⟨.var x, .int 1⟩) "b"), ("b", .mergeFrom "a")]
    let p := (Procedure.named "p").edits [Sample.declareInt "x", Sample.declareInt "y"]
    (∀ e ∈ (registers history "a").entries ++ (registers history "b").entries,
      e.1 ∈ p.variables.items) ∧
    (registers history "a" == registers history "b") = true ∧
    (registers history "a").entries.map (·.1.name) = ["y", "x"] ∧
    (registers history "b").entries.map (·.1.name) = ["x", "y"] ∧
    (registers history "a").text = (registers history "b").text := by
  intro x y history p
  have hentries : (registers history "a").entries ++ (registers history "b").entries =
      [(y, .nac), (x, .constant 1), (x, .constant 1), (y, .nac)] := rfl
  have hvars : ∀ e ∈ (registers history "a").entries ++ (registers history "b").entries,
      e.1 ∈ p.variables.items := by
    have hitems : p.variables.items = [x, y] := rfl
    intro e he
    rw [hentries] at he
    simp only [List.mem_cons, List.not_mem_nil, or_false] at he
    rw [hitems]
    rcases he with rfl | rfl | rfl | rfl <;> simp
  have hbeq : (registers history "a" == registers history "b") = true := by decide
  have htext := (valuations_stay_canonical history).text_eq "a" "b" "p" _ hvars hbeq
  exact ⟨hvars, hbeq, rfl, rfl, htext⟩

end ValuationStep
end ConstFlow
