import ConstFlow.Collections.History
import ConstFlow.Program.Samples
import ConstFlow.Proofs.Collections.InsertionOrder

/-! # Collections follow their histories

Beside the maps and sets in the registers stand functions that say what is held, and steps act on
them too. The functions know of no order and keep no flags. After any history the registers hold
what the functions say, and each further step reports truly whether that changes. The order in a
register is told from the orders before the step.
-/
namespace ConstFlow

namespace Registers
variable {β γ S : Type}

/-- The registers after a history. Steps say what becomes of their own register. -/
def after (next : Registers β → β → S → β) (start : β) (history : List (String × S)) :
    Registers β :=
  history.foldl (fun rs e => rs.set e.1 (next rs (rs e.1) e.2)) fun _ => start

variable {next : Registers β → β → S → β} {start : β} {history : List (String × S)}
variable {name other : String} {step : S}

theorem after_concat : after next start (history ++ [(name, step)]) =
    (after next start history).set name
      (next (after next start history) (after next start history name) step) :=
  List.foldl_concat _ _ _ _

theorem after_concat_self : after next start (history ++ [(name, step)]) name =
    next (after next start history) (after next start history name) step := by
  rw [after_concat, set, if_pos rfl]

theorem after_concat_of_ne (h : other ≠ name) :
    after next start (history ++ [(name, step)]) other = after next start history other := by
  rw [after_concat, set, if_neg h]

/-- A relation between two kinds of registers that steps keep holds after every history. -/
theorem after_related {next' : Registers γ → γ → S → γ} {start' : γ} {R : β → γ → Prop}
    (hstart : R start start')
    (hstep : ∀ rs cs, (∀ n, R (rs n) (cs n)) → ∀ n step,
      R (next rs (rs n) step) (next' cs (cs n) step))
    (history : List (String × S)) (name : String) :
    R (after next start history name) (after next' start' history name) := by
  -- at the end of the history, since a step sees the registers that all before it have left
  induction history using List.reverseRecOn generalizing name with
  | nil => exact hstart
  | append_singleton history e ih =>
    obtain ⟨written, step⟩ := e
    by_cases h : name = written
    · subst h
      rw [after_concat_self, after_concat_self]
      exact hstep _ _ ih name step
    · rw [after_concat_of_ne h, after_concat_of_ne h]
      exact ih name

end Registers

namespace SetStep
variable {α : Type} [BEq α]

/-- The sets in the registers after a history. -/
def registers (history : List (String × SetStep α)) : Registers (OrderedSet α) :=
  Registers.after (fun rs s step => (step.result rs s).1) .empty history

/-- The elements after a step. -/
def onContent (cs : Registers (α → Bool)) (c : α → Bool) : SetStep α → α → Bool
  | collect elems => fun x => elems.any (· == x)
  | add a => fun x => a == x || c x
  | remove a => fun x => !(a == x) && c x
  | unionWith source => fun x => c x || cs source x
  | copyFrom source | clone source => cs source

/-- Which elements a history puts into the registers. -/
def contents (history : List (String × SetStep α)) : Registers (α → Bool) :=
  Registers.after onContent (fun _ => false) history

/-- The order after a step, which depends on what the step reports if it is a copy. -/
def order (ls : Registers (List α)) (l : List α) (reply : StepReply α) : SetStep α → List α
  | collect elems => elems.eraseDups
  | add a => if l.any (· == a) then l else l ++ [a]
  | remove a => l.filter fun b => !(b == a)
  | unionWith source => l ++ (ls source).filter fun b => !l.any (· == b)
  | copyFrom source => match reply with
    | .changed true => ls source
    | _ => l
  | clone source => ls source

/-- Steps that may change a set report whether they have. -/
def Reports (before after : α → Bool) (reply : StepReply α) : SetStep α → Prop
  | add _ | remove _ | unionWith _ | copyFrom _ =>
    ∃ flag, reply = .changed flag ∧ (flag = true ↔ before ≠ after)
  | collect _ | clone _ => reply = .done

/-- The sets after a history are what they should be, and a further step does to them what it
should. -/
structure Faithful (history : List (String × SetStep α)) : Prop where
  distinct : ∀ name, (registers history name).elems.Pairwise fun a b => (a == b) = false
  content : ∀ name, (registers history name).contains = contents history name
  beq_iff : ∀ a b, (registers history a == registers history b) = true ↔
    contents history a = contents history b
  performed : ∀ name (step : SetStep α),
    (step.perform (registers history) name).1 = registers (history ++ [(name, step)])
  reports : ∀ name (step : SetStep α), step.Reports (contents history name)
    (contents (history ++ [(name, step)]) name) (step.perform (registers history) name).2
  untouched : ∀ name (step : SetStep α),
    (step.perform (registers history) name).2 = .changed false →
      registers (history ++ [(name, step)]) name = registers history name
  order : ∀ name (step : SetStep α), (registers (history ++ [(name, step)]) name).elems =
    step.order (fun n => (registers history n).elems) (registers history name).elems
      (step.perform (registers history) name).2
  others : ∀ name (step : SetStep α) other, other ≠ name →
    registers (history ++ [(name, step)]) other = registers history other

theorem registers_concat_self {history : List (String × SetStep α)} {name : String}
    {step : SetStep α} : registers (history ++ [(name, step)]) name =
      (step.result (registers history) (registers history name)).1 :=
  Registers.after_concat_self

variable [EquivBEq α]

section Steps
variable (rs : Registers (OrderedSet α)) (s : OrderedSet α)

theorem contains_result {cs : Registers (α → Bool)} {c : α → Bool}
    (hrs : ∀ n, (rs n).contains = cs n) (hs : s.contains = c) (step : SetStep α) :
    (step.result rs s).1.contains = step.onContent cs c := by
  obtain rfl : cs = fun n => (rs n).contains := funext fun n => (hrs n).symm
  subst hs
  funext x
  cases step with
  | collect elems => exact OrderedSet.contains_ofList elems x
  | add a => exact s.contains_insert a x
  | remove a => exact s.contains_erase a x
  | unionWith source => exact s.contains_union (rs source) x
  | copyFrom source => exact s.contains_copyFrom (rs source) x
  | clone source => rfl

theorem exactFlag_result {step : SetStep α} {flag : Bool}
    (h : (step.result rs s).2 = .changed flag) : ExactFlag s ((step.result rs s).1, flag) := by
  cases step with
  | collect | clone => cases h
  | add a => cases h; exact s.exactFlag_add a
  | remove a => cases h; exact s.exactFlag_remove a
  | unionWith source => cases h; exact s.exactFlag_unionWith (rs source)
  | copyFrom source => cases h; exact exactFlag_copy s (rs source)

theorem reports_result (step : SetStep α) :
    step.Reports s.contains (step.result rs s).1.contains (step.result rs s).2 := by
  have hflag : ∀ flag, (step.result rs s).2 = .changed flag →
      (flag = true ↔ s.contains ≠ (step.result rs s).1.contains) := by
    intro flag h
    rw [(exactFlag_result rs s h).changed_iff s.beq_self, ← Bool.not_eq_true, ne_eq,
      OrderedSet.beq_iff_contains, funext_iff]
  cases step with
  | collect | clone => rfl
  | add | remove | unionWith | copyFrom => exact ⟨_, rfl, hflag _ rfl⟩

theorem elems_result (step : SetStep α) : (step.result rs s).1.elems =
    step.order (fun n => (rs n).elems) s.elems (step.result rs s).2 := by
  cases step with
  | collect elems => exact OrderedSet.elems_ofList elems
  | add a => exact s.elems_insert a
  | remove a => rfl
  | unionWith source => exact s.elems_union (rs source)
  | copyFrom source =>
    simp only [order, result, OrderedSet.copyFrom]
    split <;> rfl
  | clone source => rfl

end Steps

theorem contains_registers (history : List (String × SetStep α)) (name : String) :
    (registers history name).contains = contents history name :=
  Registers.after_related (R := fun (s : OrderedSet α) c => s.contains = c) rfl
    (fun rs _ h n step => contains_result rs (rs n) h (h n) step) history name

theorem faithful (history : List (String × SetStep α)) : Faithful history where
  distinct name := (registers history name).distinct
  content := contains_registers history
  beq_iff a b := by
    rw [OrderedSet.beq_iff_contains, ← contains_registers, ← contains_registers, funext_iff]
  performed _ _ := Registers.after_concat.symm
  reports name step := by
    rw [← contains_registers, ← contains_registers, registers_concat_self]
    exact reports_result _ _ step
  untouched name step h := by
    rw [registers_concat_self]
    exact (exactFlag_result _ _ h).untouched rfl
  order name step := by
    rw [registers_concat_self]
    exact elems_result _ _ step
  others _ _ _ := Registers.after_concat_of_ne

end SetStep

namespace MapStep
variable {K V : Type} [BEq K]

/-- The values after a step. Of those collected for one key the last counts. -/
def onContent (cs : Registers (K → Option V)) (c : K → Option V) : MapStep K V → K → Option V
  | collect entries => fun x => (entries.reverse.find? fun e => e.1 == x).map (·.2)
  | update k v => fun x => if k == x then some v else c x
  | remove k => fun x => if k == x then none else c x
  | clear => fun _ => none
  | copyFrom source | clone source => cs source

/-- What a history puts into the registers under each key. -/
def contents (history : List (String × MapStep K V)) : Registers (K → Option V) :=
  Registers.after onContent (fun _ => none) history

/-- The order of the keys after a step, which depends on what the step reports if it is a copy. -/
def order (ls : Registers (List K)) (l : List K) (reply : StepReply V) : MapStep K V → List K
  | collect entries => (entries.map (·.1)).eraseDups
  | update k _ => if l.any (· == k) then l else l ++ [k]
  | remove k => l.filter fun j => !(j == k)
  | clear => []
  | copyFrom source => match reply with
    | .changed true => ls source
    | _ => l
  | clone source => ls source

variable [BEq V]

/-- The maps in the registers after a history. -/
def registers (history : List (String × MapStep K V)) : Registers (OrderedMap K V) :=
  Registers.after (fun rs m step => (step.result rs m).1) .empty history

/-- Updates and copies report whether they have changed a value, and a removal reports the old
one. -/
def Reports (before after : K → Option V) (reply : StepReply V) : MapStep K V → Prop
  | update _ _ | copyFrom _ =>
    ∃ flag, reply = .changed flag ∧ (flag = true ↔ ¬SameContent before after)
  | remove k => ∃ old, reply = .removed old ∧ (old == before k) = true
  | collect _ | clear | clone _ => reply = .done

/-- The maps after a history are what they should be, and a further step does to them what it
should. -/
structure Faithful (history : List (String × MapStep K V)) : Prop where
  distinct : ∀ name, (registers history name).keys.Pairwise fun j k => (j == k) = false
  content : ∀ name, SameContent (registers history name).get? (contents history name)
  beq_iff : ∀ a b, (registers history a == registers history b) = true ↔
    SameContent (contents history a) (contents history b)
  performed : ∀ name (step : MapStep K V),
    (step.perform (registers history) name).1 = registers (history ++ [(name, step)])
  reports : ∀ name (step : MapStep K V), step.Reports (contents history name)
    (contents (history ++ [(name, step)]) name) (step.perform (registers history) name).2
  untouched : ∀ name (step : MapStep K V),
    (step.perform (registers history) name).2 = .changed false ∨
      (step.perform (registers history) name).2 = .removed none →
        registers (history ++ [(name, step)]) name = registers history name
  order : ∀ name (step : MapStep K V), (registers (history ++ [(name, step)]) name).keys =
    step.order (fun n => (registers history n).keys) (registers history name).keys
      (step.perform (registers history) name).2
  others : ∀ name (step : MapStep K V) other, other ≠ name →
    registers (history ++ [(name, step)]) other = registers history other

theorem registers_concat_self {history : List (String × MapStep K V)} {name : String}
    {step : MapStep K V} : registers (history ++ [(name, step)]) name =
      (step.result (registers history) (registers history name)).1 :=
  Registers.after_concat_self

theorem result_of_removed_none {rs : Registers (OrderedMap K V)} {m : OrderedMap K V}
    {step : MapStep K V} (h : (step.result rs m).2 = .removed none) :
    (step.result rs m).1 = m := by
  cases step with
  | remove k => exact OrderedMap.erase_of_get?_eq_none (StepReply.removed.inj h)
  | collect | update | clear | copyFrom | clone => cases h

variable [EquivBEq K] [EquivBEq V]

section Steps
variable (rs : Registers (OrderedMap K V)) (m : OrderedMap K V)

/-- A step takes contents that are the same to contents that are the same. -/
theorem sameContent_result {cs : Registers (K → Option V)} {c : K → Option V}
    (hrs : ∀ n, SameContent (rs n).get? (cs n)) (hm : SameContent m.get? c) (step : MapStep K V) :
    SameContent (step.result rs m).1.get? (step.onContent cs c) := by
  cases step with
  | collect entries =>
    have h : (OrderedMap.ofList entries).get? = (collect entries).onContent cs c :=
      funext fun x => OrderedMap.get?_ofList entries x
    exact h ▸ .refl _
  | update k v =>
    refine (m.sameContent_update k v).trans fun x => ?_
    change ((if k == x then some v else m.get? x) == if k == x then some v else c x) = true
    split
    · exact equivBEq_option.rfl
    · exact hm x
  | remove k =>
    intro x
    change ((m.erase k).get? x == if k == x then none else c x) = true
    rw [OrderedMap.get?_erase]
    split
    · rfl
    · exact hm x
  | clear => exact .refl _
  | copyFrom source => exact (m.sameContent_copyFrom (rs source)).trans (hrs source)
  | clone source => exact hrs source

theorem exactFlag_result {step : MapStep K V} {flag : Bool}
    (h : (step.result rs m).2 = .changed flag) : ExactFlag m ((step.result rs m).1, flag) := by
  cases step with
  | collect | remove | clear | clone => cases h
  | update k v => cases h; exact m.exactFlag_update k v
  | copyFrom source => cases h; exact exactFlag_copy m (rs source)

theorem reports_result {before after : K → Option V} (step : MapStep K V)
    (hbefore : SameContent m.get? before)
    (hafter : SameContent (step.result rs m).1.get? after) :
    step.Reports before after (step.result rs m).2 := by
  have hsame : SameContent m.get? (step.result rs m).1.get? ↔ SameContent before after :=
    ⟨fun h => hbefore.symm.trans (h.trans hafter), fun h => hbefore.trans (h.trans hafter.symm)⟩
  have hflag : ∀ flag, (step.result rs m).2 = .changed flag →
      (flag = true ↔ ¬SameContent before after) := by
    intro flag h
    rw [(exactFlag_result rs m h).changed_iff m.beq_self, ← Bool.not_eq_true,
      OrderedMap.beq_iff_sameContent, hsame]
  cases step with
  | collect | clear | clone => rfl
  | update | copyFrom => exact ⟨_, rfl, hflag _ rfl⟩
  | remove k => exact ⟨_, rfl, hbefore k⟩

omit [EquivBEq V] in
theorem keys_result (step : MapStep K V) : (step.result rs m).1.keys =
    step.order (fun n => (rs n).keys) m.keys (step.result rs m).2 := by
  cases step with
  | collect entries =>
    change (OrderedMap.ofList entries).keySet.elems = _
    rw [OrderedMap.keySet_ofList]
    exact OrderedSet.elems_ofList _
  | update k v =>
    change (m.update k v).1.keySet.elems = _
    rw [OrderedMap.keySet_update]
    exact m.keySet.elems_insert k
  | remove k =>
    change (m.erase k).keySet.elems = _
    rw [OrderedMap.keySet_erase]
    rfl
  | clear => rfl
  | copyFrom source =>
    simp only [order, result, OrderedMap.copyFrom]
    split <;> rfl
  | clone source => rfl

end Steps

theorem sameContent_registers (history : List (String × MapStep K V)) (name : String) :
    SameContent (registers history name).get? (contents history name) :=
  Registers.after_related (R := fun (m : OrderedMap K V) c => SameContent m.get? c) (.refl _)
    (fun rs _ h n step => sameContent_result rs (rs n) h (h n) step) history name

theorem faithful (history : List (String × MapStep K V)) : Faithful history where
  distinct name := (registers history name).keySet.distinct
  content := sameContent_registers history
  beq_iff a b := by
    have ha := sameContent_registers history a
    have hb := sameContent_registers history b
    rw [OrderedMap.beq_iff_sameContent]
    exact ⟨fun h => ha.symm.trans (h.trans hb), fun h => ha.trans (h.trans hb.symm)⟩
  performed _ _ := Registers.after_concat.symm
  reports name step := by
    have hafter := sameContent_registers (history ++ [(name, step)]) name
    rw [registers_concat_self] at hafter
    exact reports_result _ _ step (sameContent_registers history name) hafter
  untouched name step h := by
    rw [registers_concat_self]
    rcases h with h | h
    · exact (exactFlag_result _ _ h).untouched rfl
    · exact result_of_removed_none h
  order name step := by
    rw [registers_concat_self]
    exact keys_result _ _ step
  others _ _ _ := Registers.after_concat_of_ne

end MapStep

/-- Maps and sets in registers are the mathematical ones under any history of steps. Their flags
are exact, and their orders are those of insertion. -/
theorem collections_follow_histories {K V α : Type} [BEq K] [EquivBEq K] [BEq V] [EquivBEq V]
    [BEq α] [EquivBEq α] (maps : List (String × MapStep K V)) (sets : List (String × SetStep α)) :
    MapStep.Faithful maps ∧ SetStep.Faithful sets :=
  ⟨MapStep.faithful maps, SetStep.faithful sets⟩

/-- A key that is removed and stored again under another name goes last, and the copy of a map
that differs in nothing else keeps the order. Sets are united in the order of the other. -/
theorem stored_again_goes_last :
    let x := Sample.int 0 "x"
    let y := Sample.int 1 "y"
    let again := Sample.int 0 "again"
    let maps : List (String × MapStep Variable Int) :=
      [("a", .collect [(x, 1), (y, 2), (again, 3)]), ("b", .clone "a"), ("b", .remove x),
        ("b", .update again 3), ("a", .copyFrom "b")]
    let sets : List (String × SetStep Variable) :=
      [("a", .collect [y, x, again]), ("b", .add again), ("b", .unionWith "a")]
    (EquivBEq Variable ∧ EquivBEq Int) ∧ (MapStep.Faithful maps ∧ SetStep.Faithful sets) ∧
    (MapStep.registers maps "a").keys.map Variable.name = ["x", "y"] ∧
    (MapStep.registers maps "b").keys.map Variable.name = ["y", "again"] ∧
    (SetStep.registers sets "b").elems.map Variable.name = ["again", "y"] := by
  intro x y again maps sets
  exact ⟨⟨inferInstance, inferInstance⟩, collections_follow_histories maps sets, by decide,
    by decide, by decide⟩

end ConstFlow
