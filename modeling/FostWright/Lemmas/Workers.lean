import FostWright.Theorems.Resending
import FostWright.Workers
import Mathlib.Algebra.Order.BigOperators.Group.Finset

/-!
# Crashes of workers do not stop their owner

Each child, with its pipes and its worker, is on a run of `Resending`, whatever the owner does in between, and the owner is on a run of its
own. So where the children have nothing more to do, their queues are empty, and an owner that comes to its goal if its children answer comes
there over workers that crash.
-/

namespace FostWright

open Lib

namespace Slot

variable {P : Type} [DecidableEq P] {κ : P → Type} [∀ p, DecidableEq (κ p)] {f g : (p : P) → κ p → Slot} {p : P}

/-- A child of one process has changed. -/
theorem all_update {k : κ p} {slot : Slot} (h : g p = Function.update (f p) k slot) (hothers : ∀ q, q ≠ p → g q = f q) :
    all g = Function.update (all f) ⟨p, k⟩ slot := by
  funext ⟨q, j⟩
  by_cases hq : q = p
  · subst hq
    by_cases hj : j = k
    · rw [hj, Function.update_self]
      exact (congrFun h k).trans (Function.update_self k slot (f q))
    · rw [Function.update_of_ne (fun heq => hj (eq_of_heq (Sigma.mk.inj heq).2))]
      exact (congrFun h j).trans (Function.update_of_ne hj slot (f q))
  · rw [Function.update_of_ne (fun heq => hq (congrArg Sigma.fst heq))]
    exact congrFun (hothers q hq) j

/-- What one process does without its children, the others staying as they are, is done without any. -/
theorem Leaves.all (h : Leaves (f p) (g p)) (hothers : ∀ q, q ≠ p → g q = f q) : Leaves (Slot.all f) (Slot.all g) := by
  rcases h with ⟨hchild, hwriting, hflag⟩ | ⟨hne, hfree, hroom, hafter⟩
  · refine .quiet ?_ ?_ ?_
    · rintro ⟨q, k⟩
      by_cases hq : q = p
      · subst hq
        exact hchild k
      · exact congrArg Slot.child (congrFun (hothers q hq) k)
    · rintro ⟨q, k⟩
      by_cases hq : q = p
      · subst hq
        exact hwriting k
      · exact congrArg Slot.writing (congrFun (hothers q hq) k)
    · rintro ⟨q, k⟩
      by_cases hq : q = p
      · subst hq
        exact hflag k
      · exact Or.inl (congrArg Slot.inputComplete (congrFun (hothers q hq) k))
  · exact @Leaves.begins _ _ _ _ ⟨p, _⟩ _ _ hne hfree hroom (all_update hafter hothers)

end Slot

namespace Workers

variable {σ α ι : Type} [DecidableEq ι] {O : Owner σ α ι}

/-! ## What the owner does without the children -/

/-- Where the owner goes on without the children, they stay as they are up to the flag, or a job is written to one of them. -/
theorem withOwner_cases {s : Workers σ ι} {owner : σ} (h : Slot.Leaves (O.slot s.owner) (O.slot owner)) :
    (∀ i, ∃ complete, (complete = (s.child O i).inputComplete ∨ complete = true) ∧
      (s.withOwner O owner).child O i = { s.child O i with inputComplete := complete }) ∨
    ∃ i text task, Answerable text ∧ (s.child O i).writing = none ∧ (s.child O i).child.commands.full = false ∧
      (s.withOwner O owner).child O i =
        { s.child O i with
          writing := some (text, task)
          ready := (s.child O i).ready ++ [.nextJob]
          dispatched := (s.child O i).dispatched ++ [text] } ∧
      ∀ j, j ≠ i → (s.withOwner O owner).child O j = s.child O j := by
  have hkept : ∀ i, (O.slot owner i).writing = (O.slot s.owner i).writing → (s.withOwner O owner).wires i = s.wires i := by
    intro i hwriting
    unfold withOwner
    simp only [hwriting]
    cases (O.slot s.owner i).writing <;> rfl
  rcases h with ⟨hchild, hwriting, hflag⟩ | @⟨i, text, task, hne, hfree, hroom, hafter⟩
  · refine Or.inl (fun i => ⟨_, hflag i, ?_⟩)
    unfold child
    rw [hkept i (hwriting i)]
    simp only [withOwner, hchild, hwriting]
  · refine Or.inr ⟨i, text, task, hne, hfree, hroom, ?_, ?_⟩
    · unfold child withOwner Wires.begin
      simp only [hafter, Function.update_self, hfree]
    · intro j hji
      have hsame : O.slot owner j = O.slot s.owner j := by rw [hafter, Function.update_of_ne hji]
      unfold child
      rw [hkept j (congrArg Slot.writing hsame)]
      simp only [withOwner, hsame]

/-- Both are runs of the children. -/
theorem child_withOwner {s : Workers σ ι} {owner : σ} (h : Slot.Leaves (O.slot s.owner) (O.slot owner)) (i : ι) :
    Resending.system.ReachFrom Resending.Careful (s.child O i) ((s.withOwner O owner).child O i) := by
  rcases withOwner_cases h with hquiet | ⟨j, text, task, hne, hfree, hroom, hself, hothers⟩
  · obtain ⟨complete, hcomplete, hsame⟩ := hquiet i
    rw [hsame]
    rcases hcomplete with rfl | rfl
    · exact .refl
    · exact .single .inputComplete trivial rfl
  · by_cases hij : i = j
    · rw [hij, hself]
      exact .single (.write text task) hne (if_pos ⟨hfree, hroom⟩)
    · rw [hothers i hij]
      exact .refl

/-- A child and the owner whose books have it as it is. -/
theorem child_mk (s : Workers σ ι) (owner : σ) (i : ι) (t : Resending) (hchild : (O.slot owner i).child = t.child)
    (hcomplete : (O.slot owner i).inputComplete = t.inputComplete) (hwriting : (O.slot owner i).writing = t.writing) :
    ({ owner := owner, wires := Function.update s.wires i t.wires } : Workers σ ι).child O i = t := by
  unfold child
  simp only [hchild, hcomplete, hwriting, Function.update_self]
  rfl

/-- What an action of a child does: the child takes its step, the others stay, and the owner takes a step at this child, or none. -/
structure Effects (O : Owner σ α ι) (s : Workers σ ι) (i : ι) (t : Resending) (owner : σ) : Prop where
  self : ({ owner := owner, wires := Function.update s.wires i t.wires } : Workers σ ι).child O i = t
  others : ∀ j, j ≠ i → ({ owner := owner, wires := Function.update s.wires i t.wires } : Workers σ ι).child O j = s.child O j
  moved : (owner = s.owner ∧ t.done = (s.child O i).done) ∨
    (O.ok s.owner (O.push i) ∧ O.system.step s.owner (O.push i) = some owner ∧ t.done = (s.child O i).done) ∨
    ∃ ret, ((O.slot s.owner i).child.handleStdout (O.slot s.owner i).now ret).isSome = true ∧ O.ok s.owner (O.stdout i ret) ∧
      O.system.step s.owner (O.stdout i ret) = some owner ∧ t.done = (s.child O i).done ++ [ret]

/-- The others stay where the books of this child change. -/
theorem child_others {s : Workers σ ι} {owner : σ} {i : ι} {slot : Slot} (h : O.slot owner = Function.update (O.slot s.owner) i slot)
    (t : Resending) {j : ι} (hji : j ≠ i) :
    ({ owner := owner, wires := Function.update s.wires i t.wires } : Workers σ ι).child O j = s.child O j := by
  unfold child
  simp only [h, Function.update_of_ne hji]

/-- An action that the books do not see. -/
theorem effects_unseen (s : Workers σ ι) (i : ι) (t : Resending) (hchild : t.child = (s.child O i).child)
    (hcomplete : t.inputComplete = (s.child O i).inputComplete) (hwriting : t.writing = (s.child O i).writing)
    (hdone : t.done = (s.child O i).done) : s.Effects O i t s.owner :=
  ⟨child_mk s _ i t hchild.symm hcomplete.symm hwriting.symm, fun _ hji => child_others (Function.update_eq_self i _).symm t hji,
    Or.inl ⟨rfl, hdone⟩⟩

/-- What `resendFrom` leaves of a child. -/
theorem resendFrom_keeps (s : Resending) (i : Nat) :
    (s.resendFrom i).child = s.child ∧ (s.resendFrom i).inputComplete = s.inputComplete ∧ (s.resendFrom i).writing = s.writing ∧
      (s.resendFrom i).done = s.done := by
  unfold Resending.resendFrom Resending.append
  split
  · split <;> exact ⟨rfl, rfl, rfl, rfl⟩
  · exact ⟨rfl, rfl, rfl, rfl⟩

/-- An action of a child. -/
theorem effects_of_step {s : Workers σ ι} (h : O.system.Reach O.ok s.owner) {i : ι} {a : Resending.Action} {t : Resending} {owner : σ}
    (hnow : a.isAt (O.slot s.owner i).now = true) (hstep : (s.child O i).step a = some t) (heffect : s.effect O i a = some owner) :
    s.Effects O i t owner := by
  cases Resending.steps_of_step hstep with
  | write => cases hnow
  | @push now text task rest hopen hturn =>
    obtain rfl := eq_of_beq hnow
    obtain ⟨hok, owner', hpush, hslot⟩ := O.pushed h hopen
    obtain rfl := Option.some.inj (hpush.symm.trans heffect)
    have hself := congrFun hslot i
    rw [Function.update_self] at hself
    exact ⟨child_mk s _ i _ ((congrArg Slot.child hself).trans rfl) ((congrArg Slot.inputComplete hself).trans rfl)
      ((congrArg Slot.writing hself).trans rfl), fun _ hji => child_others hslot _ hji, Or.inr (Or.inl ⟨hok, hpush, rfl⟩)⟩
  | @matched now ret rest job child hwritten hanswers =>
    obtain rfl := eq_of_beq hnow
    have hstdout : (s.wires i).stdout = ret :: rest := hwritten
    simp only [effect, hstdout] at heffect
    obtain ⟨hok, owner', hmatched, hslot⟩ := O.matched h hanswers
    obtain rfl := Option.some.inj (hmatched.symm.trans heffect)
    have hself := congrFun hslot i
    rw [Function.update_self] at hself
    exact ⟨child_mk s _ i _ ((congrArg Slot.child hself).trans rfl) ((congrArg Slot.inputComplete hself).trans rfl)
      ((congrArg Slot.writing hself).trans rfl), fun _ hji => child_others hslot _ hji,
      Or.inr (Or.inr ⟨readLine ret, Option.isSome_iff_exists.mpr ⟨_, hanswers⟩, hok, hmatched, rfl⟩)⟩
  | @ignored now ret rest hwritten hanswers =>
    obtain rfl := eq_of_beq hnow
    have hstdout : (s.wires i).stdout = ret :: rest := hwritten
    simp only [effect, hstdout] at heffect
    obtain rfl := Option.some.inj ((O.ignored h hanswers).symm.trans heffect)
    exact effects_unseen s i _ rfl rfl rfl rfl
  | @handleRequest pending _ _ =>
    obtain rfl := Option.some.inj heffect
    obtain ⟨hchild, hcomplete, hwriting, hdone⟩ :=
      resendFrom_keeps { s.child O i with requests := pending, crashed := (s.child O i).crashed + 1 } 0
    exact effects_unseen s i _ hchild hcomplete hwriting hdone
  | @resend place rest _ _ =>
    obtain rfl := Option.some.inj heffect
    obtain ⟨hchild, hcomplete, hwriting, hdone⟩ :=
      resendFrom_keeps { s.child O i with ready := rest, resent := (s.child O i).resent + 1 } (place + 1)
    exact effects_unseen s i _ hchild hcomplete hwriting hdone
  | inputComplete => cases hnow
  | _ =>
    obtain rfl := Option.some.inj heffect
    exact effects_unseen s i _ rfl rfl rfl rfl

/-- What a child can do, it can do here. -/
theorem exists_effect {s : Workers σ ι} (h : O.system.Reach O.ok s.owner) {i : ι} {a : Resending.Action} {t : Resending}
    (hnow : a.isAt (O.slot s.owner i).now = true) (hstep : (s.child O i).step a = some t) : ∃ owner, s.effect O i a = some owner := by
  cases Resending.steps_of_step hstep with
  | @push now text task rest hopen hturn =>
    obtain ⟨-, owner, hpush, -⟩ := O.pushed h hopen
    exact ⟨owner, hpush⟩
  | @matched now ret rest job child hwritten hanswers =>
    obtain rfl := eq_of_beq hnow
    have hstdout : (s.wires i).stdout = ret :: rest := hwritten
    obtain ⟨-, owner, hmatched, -⟩ := O.matched h hanswers
    simp only [effect, hstdout]
    exact ⟨owner, hmatched⟩
  | @ignored now ret rest hwritten hanswers =>
    obtain rfl := eq_of_beq hnow
    have hstdout : (s.wires i).stdout = ret :: rest := hwritten
    simp only [effect, hstdout]
    exact ⟨s.owner, O.ignored h hanswers⟩
  | _ => exact ⟨_, rfl⟩

/-! ## The runs -/

/-- The owner is on a run of its own, and so is each child. -/
structure Sound (O : Owner σ α ι) (s : Workers σ ι) : Prop where
  owner : O.system.Reach O.ok s.owner
  children : ∀ i, Resending.system.Reach Resending.Careful (s.child O i)

theorem sound_init (O : Owner σ α ι) : (system O).init.Sound O := by
  refine ⟨.refl, ?_⟩
  intro i
  have hchild : (system O).init.child O i = Resending.init := by
    unfold child system
    simp only [O.init]
    rfl
  rw [hchild]
  exact .refl

/-- One action: the owner takes a step or none, and each child takes some steps of its own. -/
theorem Sound.step {s s' : Workers σ ι} {a : Action α ι} (h : s.Sound O) (hok : s.Careful O a) (hs : s.step O a = some s') :
    s'.Sound O := by
  cases steps_of_step hs with
  | owner hown hstep =>
    exact ⟨.step _ h.owner hok hstep, fun i => (h.children i).trans (child_withOwner (O.leaves h.owner hok hown hstep) i)⟩
  | @child i a t owner hnow hstep heffect =>
    have heffects := effects_of_step h.owner hnow hstep heffect
    refine ⟨?_, ?_⟩
    · rcases heffects.moved with ⟨rfl, -⟩ | ⟨hcareful, hmoved, -⟩ | ⟨ret, -, hcareful, hmoved, -⟩
      · exact h.owner
      · exact .step _ h.owner hcareful hmoved
      · exact .step _ h.owner hcareful hmoved
    · intro j
      by_cases hji : j = i
      · rw [hji, heffects.self]
        exact .step a (h.children i) hok hstep
      · rw [heffects.others j hji]
        exact h.children j

theorem sound_of_reach {s : Workers σ ι} (h : (system O).Reach (Careful O) s) : s.Sound O :=
  h.invariant (sound_init O) (fun _ _ _ hi hok hs => hi.step hok hs)

/-! ## Progress -/

variable {productive : σ → α → Prop} {I : σ → Prop} {measure : σ → Nat} {goal : σ → Prop}

theorem Productive.careful (hadvances : O.Advances productive I measure goal) {s : Workers σ ι} {a : Action α ι}
    (h : s.Productive O productive a) : s.Careful O a := by
  cases a with
  | owner a => exact hadvances.ok h
  | child i a => exact Resending.Productive.careful h

/-- What the owner has done at a child has taken it forward. -/
theorem Effects.advances (hadvances : O.Advances productive I measure goal) {s : Workers σ ι} {i : ι} {t : Resending} {owner : σ}
    (h : s.Effects O i t owner) (hs : I s.owner) : I owner ∧ measure owner ≤ measure s.owner := by
  rcases h.moved with ⟨rfl, -⟩ | ⟨-, hmoved, -⟩ | ⟨ret, hanswers, -, hmoved, -⟩
  · exact ⟨hs, le_rfl⟩
  · have hok := hadvances.push s.owner i
    exact ⟨hadvances.lowers.keeps _ _ _ hs hok hmoved, (hadvances.lowers.lowers _ _ _ hs hok hmoved).le⟩
  · have hok := hadvances.stdout hs hanswers
    exact ⟨hadvances.lowers.keeps _ _ _ hs hok hmoved, (hadvances.lowers.lowers _ _ _ hs hok hmoved).le⟩

/-- The owner keeps what it needs. -/
theorem keeps_of_productive (hadvances : O.Advances productive I measure goal) {s s' : Workers σ ι} {a : Action α ι} (h : s.Sound O)
    (hI : I s.owner) (hok : s.Productive O productive a) (hs : s.step O a = some s') : I s'.owner := by
  cases steps_of_step hs with
  | owner _ hstep => exact hadvances.lowers.keeps _ _ _ hI hok hstep
  | child hnow hstep heffect => exact ((effects_of_step h.owner hnow hstep heffect).advances hadvances hI).1

/-- When nothing productive can happen, the children have done their jobs. -/
theorem Sound.children_of_stuck {s : Workers σ ι} (h : s.Sound O) (hstuck : (system O).Stuck (Productive O productive) s) (i : ι) :
    (s.child O i).writing = none ∧ (s.child O i).child.texts = [] ∧ (s.child O i).done = (s.child O i).dispatched := by
  have hsound := Resending.sound_of_reach (h.children i)
  have hidle := hsound.of_stuck (O.slot s.owner i).now (by
    intro a hnow hok
    rw [Option.eq_none_iff_forall_ne_some]
    intro t hstep
    obtain ⟨owner, heffect⟩ := exists_effect h.owner hnow hstep
    have hnone : s.step O (.child i a) = none := hstuck (.child i a) hok
    simp only [Workers.step, hnow, if_true, hstep, heffect, Option.bind_some, Option.map_some] at hnone
    cases hnone)
  exact ⟨hidle.1, hsound.done_of_idle hidle⟩

variable [Fintype ι]

/-- What the owner begins to write costs what the owner has saved. -/
theorem sum_withOwner_le {s : Workers σ ι} {owner : σ} (h : Slot.Leaves (O.slot s.owner) (O.slot owner)) :
    ∑ i, ((s.withOwner O owner).child O i).remaining ≤ ∑ i, (s.child O i).remaining + 8 := by
  rcases withOwner_cases h with hquiet | ⟨i, text, task, -, hfree, -, hself, hothers⟩
  · refine (Finset.sum_congr rfl (fun i _ => ?_)).le.trans (Nat.le_add_right _ _)
    obtain ⟨complete, -, hsame⟩ := hquiet i
    rw [hsame]
    rfl
  · have hcost : ((s.withOwner O owner).child O i).remaining ≤ (s.child O i).remaining + 8 := by
      rw [hself]
      simp only [Resending.remaining, hfree, Option.toList_none, Option.toList_some, List.length_nil, List.length_singleton]
      omega
    have hsum := System.sum_add_of_others (f := fun j => (s.child O j).remaining)
      (g := fun j => ((s.withOwner O owner).child O j).remaining) (i := i) (fun j hji => by rw [hothers j hji])
    omega

/-- A productive action leaves less to do. -/
theorem remaining_lt (hadvances : O.Advances productive I measure goal) {s s' : Workers σ ι} {a : Action α ι} (h : s.Sound O)
    (hI : I s.owner) (hok : s.Productive O productive a) (hs : s.step O a = some s') : s'.remaining O measure < s.remaining O measure := by
  cases steps_of_step hs with
  | @owner a owner hown hstep =>
    have hlt := hadvances.lowers.lowers _ _ _ hI hok hstep
    have hle := sum_withOwner_le (O.leaves h.owner (hadvances.ok hok) hown hstep)
    unfold remaining
    change 9 * measure owner + _ < _
    omega
  | @child i a t owner hnow hstep heffect =>
    have heffects := effects_of_step h.owner hnow hstep heffect
    have hlt := Resending.remaining_lt (Resending.sound_of_reach (h.children i)) hok hstep
    have hsum := System.sum_add_of_others (f := fun j => (s.child O j).remaining)
      (g := fun j => (({ owner := owner, wires := Function.update s.wires i t.wires } : Workers σ ι).child O j).remaining)
      (i := i) (fun j hji => by rw [heffects.others j hji])
    simp only [heffects.self] at hsum
    have hle := (heffects.advances hadvances hI).2
    unfold remaining
    simp only
    omega

/-- The rule for owners over workers that crash: if the owner comes to its goal when its children answer, it comes there, and then the
children have done all their jobs. -/
theorem comesTo (hadvances : O.Advances productive I measure goal) {s : Workers σ ι} (h : (system O).Reach (Careful O) s) (hI : I s.owner) :
    (system O).ComesTo (Productive O productive) (s.remaining O measure)
      (fun t => goal t.owner ∧ ∀ i, (t.child O i).done = (t.child O i).dispatched) s := by
  have hlowers : (system O).Lowers (Productive O productive) (fun t => t.Sound O ∧ I t.owner) (remaining O measure) :=
    ⟨fun _ _ _ hi hok hs => ⟨hi.1.step (hok.careful hadvances) hs, keeps_of_productive hadvances hi.1 hi.2 hok hs⟩,
      fun _ _ _ hi hok hs => remaining_lt hadvances hi.1 hi.2 hok hs⟩
  refine hlowers.comesTo ⟨sound_of_reach h, hI⟩ ?_
  rintro t ⟨hsound, hIt⟩ hstuck
  have hchildren := fun i => hsound.children_of_stuck hstuck i
  refine ⟨hadvances.waits hIt (fun i => ⟨(hchildren i).1, (hchildren i).2.1⟩) ?_, fun i => (hchildren i).2.2⟩
  intro a hown hok
  have hnone : t.step O (.owner a) = none := hstuck (.owner a) hok
  simp only [Workers.step, hown, Bool.false_eq_true, if_false, Option.map_eq_none_iff] at hnone
  exact hnone

end Workers

end FostWright
