import Mathlib.Algebra.BigOperators.Group.List.Basic
import Mathlib.Algebra.Order.Group.Nat
import Mathlib.Algebra.Order.Sub.Basic
import Mathlib.Order.CompletePartialOrder
import Mathlib.Order.Interval.Set.Disjoint

/-!
# One server, and the time it takes for each visitor

Visitors are served in the order in which they come. The server is with a visitor from when it has come and the one before has left
until it leaves (`service`); these intervals follow each other, so that they are disjoint, and their lengths are together no more
than the time since the first visitor came. They can be measured without a history: each visitor has a stopwatch, which is started
when it comes, and again when it gets to the front because the one before leaves (`Server`).
-/

namespace Lib

variable {τ : Type*} [LinearOrder τ]

/-! ## Intervals of service -/

/-- When the server turns to a visitor that came at `arrival`, if one before left at `last`. -/
def turn (last : Option τ) (arrival : τ) : τ := last.elim arrival (max arrival)

/-- The intervals in which the server is with each visitor that has left, if one before them left at `last`. -/
def service : Option τ → List τ → List τ → List (τ × τ)
  | last, arrival :: arrivals, departure :: departures =>
    (turn last arrival, departure) :: service (some departure) arrivals departures
  | _, _, _ => []

/-- The server turns at once to a visitor that comes after everyone has left. -/
theorem turn_of_le {last : Option τ} {now : τ} (h : ∀ t ∈ last, t ≤ now) : turn last now = now := by
  cases last with
  | none => rfl
  | some t => exact max_eq_left (h t rfl)

theorem le_turn (t arrival : τ) : t ≤ turn (some t) arrival := le_max_right _ _

/-- Visitors that have not left do not count. -/
theorem service_append_left (last : Option τ) {arrivals departures : List τ} (h : arrivals.length = departures.length)
    (waiting : List τ) : service last (arrivals ++ waiting) departures = service last arrivals departures := by
  induction arrivals generalizing last departures with
  | nil =>
    obtain rfl := List.eq_nil_of_length_eq_zero h.symm
    cases waiting <;> rfl
  | cons arrival arrivals ih =>
    cases departures with
    | nil => cases h
    | cons departure departures =>
      simp only [List.cons_append, service]
      rw [ih _ (Nat.succ.inj h)]

/-- One more visitor leaves. -/
theorem service_concat (last : Option τ) {arrivals departures : List τ} (h : arrivals.length = departures.length)
    (arrival departure : τ) :
    service last (arrivals ++ [arrival]) (departures ++ [departure]) =
      service last arrivals departures ++ [(turn (departures.getLast?.or last) arrival, departure)] := by
  induction arrivals generalizing last departures with
  | nil =>
    obtain rfl := List.eq_nil_of_length_eq_zero h.symm
    rfl
  | cons first arrivals ih =>
    cases departures with
    | nil => cases h
    | cons left departures =>
      simp only [List.cons_append, service]
      rw [ih _ (Nat.succ.inj h)]
      cases hlast : departures.getLast? <;> simp [List.getLast?_cons, hlast]

/-- The server turns to no visitor before the last departure. -/
theorem le_of_mem_service {t : τ} {arrivals departures : List τ} (h : ∀ p ∈ service (some t) arrivals departures, p.1 ≤ p.2)
    {p : τ × τ} (hp : p ∈ service (some t) arrivals departures) : t ≤ p.1 := by
  induction arrivals generalizing t departures with
  | nil => cases hp
  | cons arrival arrivals ih =>
    cases departures with
    | nil => cases hp
    | cons departure departures =>
      simp only [service, List.forall_mem_cons] at h
      rcases List.mem_cons.mp hp with rfl | hp
      · exact le_turn t arrival
      · exact ((le_turn t arrival).trans h.1).trans (ih h.2 hp)

/-- The intervals follow each other. -/
theorem pairwise_service {last : Option τ} {arrivals departures : List τ} (h : ∀ p ∈ service last arrivals departures, p.1 ≤ p.2) :
    (service last arrivals departures).Pairwise (fun p q => p.2 ≤ q.1) := by
  induction arrivals generalizing last departures with
  | nil => exact List.Pairwise.nil
  | cons arrival arrivals ih =>
    cases departures with
    | nil => exact List.Pairwise.nil
    | cons departure departures =>
      simp only [service, List.forall_mem_cons] at h
      exact List.Pairwise.cons (fun q hq => le_of_mem_service h.2 hq) (ih h.2)

/-- Intervals that follow each other are disjoint. -/
theorem pairwise_disjoint_service {last : Option τ} {arrivals departures : List τ}
    (h : ∀ p ∈ service last arrivals departures, p.1 ≤ p.2) :
    (service last arrivals departures).Pairwise (fun p q => Disjoint (Set.Ico p.1 p.2) (Set.Ico q.1 q.2)) :=
  (pairwise_service h).imp (fun hpq => Set.Ico_disjoint_Ico.mpr ((min_le_left _ _).trans (hpq.trans (le_max_right _ _))))

variable [Sub τ]

/-- How long the server was with a visitor. -/
def lasted (p : τ × τ) : τ := p.2 - p.1

/-! ## Stopwatches -/

/-- The arrivals and departures so far, the instants at which the watches of the visitors who are there were started, front first, and
what the watches of those who left showed. -/
structure Server (τ : Type*) where
  arrivals : List τ
  departures : List τ
  watches : List τ
  recorded : List τ

namespace Server

/-- A visitor comes, and its watch is started. -/
def arrive (s : Server τ) (now : τ) : Server τ := { s with arrivals := s.arrivals ++ [now], watches := s.watches ++ [now] }

/-- The visitor at the front leaves: what its watch shows is recorded, and the watch of the next one is started again. -/
def depart (s : Server τ) (now : τ) : Server τ :=
  match s.watches with
  | [] => s
  | watch :: watches =>
    { s with
      departures := s.departures ++ [now]
      watches := watches.modifyHead (fun _ => now)
      recorded := s.recorded ++ [now - watch] }

/-- The watch at the front was started when the server turned to that visitor, the others when their visitors came, and what was recorded
is how long the server was with each visitor. -/
structure Timely (s : Server τ) (now : τ) : Prop where
  watches : ∃ left waiting, s.arrivals = left ++ waiting ∧ left.length = s.departures.length ∧
    s.watches = waiting.modifyHead (turn s.departures.getLast?)
  orderly : ∀ p ∈ service none s.arrivals s.departures, p.1 ≤ p.2
  recorded : s.recorded = (service none s.arrivals s.departures).map lasted
  arrivals : ∀ t ∈ s.arrivals, t ≤ now
  departures : ∀ t ∈ s.departures, t ≤ now

variable {s : Server τ} {now : τ}

/-- Time goes on. -/
theorem Timely.later (h : s.Timely now) {later : τ} (hlater : now ≤ later) : s.Timely later :=
  { h with
    arrivals := fun t ht => (h.arrivals t ht).trans hlater
    departures := fun t ht => (h.departures t ht).trans hlater }

theorem Timely.arrive (h : s.Timely now) : (s.arrive now).Timely now := by
  obtain ⟨left, waiting, harrivals, hlength, hwatches⟩ := h.watches
  have hservice : service none (s.arrivals ++ [now]) s.departures = service none s.arrivals s.departures := by
    rw [harrivals, List.append_assoc, service_append_left _ hlength, service_append_left _ hlength]
  refine ⟨⟨left, waiting ++ [now], ?_, hlength, ?_⟩, ?_, ?_, ?_, h.departures⟩
  · simp only [Server.arrive, harrivals, List.append_assoc]
  · simp only [Server.arrive, hwatches]
    cases waiting with
    | nil =>
      have hturn : turn s.departures.getLast? now = now := turn_of_le (fun t ht => h.departures t (List.mem_of_getLast? ht))
      simp [hturn]
    | cons first waiting => rfl
  · simp only [Server.arrive, hservice]
    exact h.orderly
  · simp only [Server.arrive, hservice]
    exact h.recorded
  · intro t ht
    rcases List.mem_append.mp ht with ht | ht
    · exact h.arrivals t ht
    · exact (List.mem_singleton.mp ht).le

theorem Timely.depart (h : s.Timely now) : (s.depart now).Timely now := by
  obtain ⟨left, waiting, harrivals, hlength, hwatches⟩ := h.watches
  cases waiting with
  | nil =>
    rw [List.modifyHead_nil] at hwatches
    unfold Server.depart
    rw [hwatches]
    exact h
  | cons first waiting =>
    rw [List.modifyHead_cons] at hwatches
    have hfirst : first ∈ s.arrivals := by
      rw [harrivals]
      exact List.mem_append_right _ List.mem_cons_self
    have hleft : (left ++ [first]).length = (s.departures ++ [now]).length := by
      rw [List.length_append, List.length_append, hlength, List.length_singleton, List.length_singleton]
    have hservice : service none s.arrivals (s.departures ++ [now]) =
        service none s.arrivals s.departures ++ [(turn s.departures.getLast? first, now)] := by
      rw [harrivals, service_append_left _ hlength, List.append_cons, service_append_left _ hleft, service_concat _ hlength,
        Option.or_none]
    have hturn : turn s.departures.getLast? first ≤ now := by
      cases hlast : s.departures.getLast? with
      | none => exact h.arrivals first hfirst
      | some t => exact max_le (h.arrivals first hfirst) (h.departures t (List.mem_of_getLast? hlast))
    unfold Server.depart
    rw [hwatches]
    refine ⟨⟨left ++ [first], waiting, ?_, hleft, ?_⟩, ?_, ?_, h.arrivals, ?_⟩
    · rw [harrivals, List.append_assoc, List.singleton_append]
    · cases waiting with
      | nil => rfl
      | cons next waiting =>
        have hnext : next ≤ now := by
          refine h.arrivals next ?_
          rw [harrivals]
          exact List.mem_append_right _ (List.mem_cons_of_mem _ List.mem_cons_self)
        simp [turn, max_eq_right hnext]
    · intro p hp
      rw [hservice, List.mem_append, List.mem_singleton] at hp
      rcases hp with hp | rfl
      · exact h.orderly p hp
      · exact hturn
    · rw [hservice, List.map_append, ← h.recorded]
      rfl
    · intro t ht
      rcases List.mem_append.mp ht with ht | ht
      · exact h.departures t ht
      · exact (List.mem_singleton.mp ht).le

end Server

/-! ## The time for all visitors -/

variable [AddCommMonoid τ] [IsOrderedAddMonoid τ] [CanonicallyOrderedAdd τ] [OrderedSub τ]

/-- The server was busy for no longer than since it turned to the first visitor. -/
theorem sum_service_le {last : Option τ} {arrival : τ} {arrivals departures : List τ} {now : τ}
    (h : ∀ p ∈ service last (arrival :: arrivals) departures, p.1 ≤ p.2) (hnow : ∀ t ∈ departures, t ≤ now) :
    ((service last (arrival :: arrivals) departures).map lasted).sum ≤ now - turn last arrival := by
  induction arrivals generalizing last arrival departures with
  | nil =>
    cases departures with
    | nil => exact zero_le
    | cons departure departures =>
      simp only [service, List.map_cons, List.map_nil, List.sum_cons, List.sum_nil, add_zero]
      exact tsub_le_tsub_right (hnow departure List.mem_cons_self) _
  | cons next arrivals ih =>
    cases departures with
    | nil => exact zero_le
    | cons departure departures =>
      rw [service, List.forall_mem_cons] at h
      obtain ⟨hdeparture, hdepartures⟩ := List.forall_mem_cons.mp hnow
      rw [service, List.map_cons, List.sum_cons]
      have hrest := (ih h.2 hdepartures).trans (tsub_le_tsub_left (le_turn departure next) now)
      calc
        lasted (turn last arrival, departure) + ((service (some departure) (next :: arrivals) departures).map lasted).sum
            ≤ (departure - turn last arrival) + (now - departure) := add_le_add_right hrest _
        _ = (now - departure) + (departure - turn last arrival) := add_comm _ _
        _ = now - turn last arrival := tsub_add_tsub_cancel hdeparture h.1

/-- What was recorded is together no more than the time since the first visitor came. -/
theorem Server.Timely.sum_recorded_le {s : Server τ} {now : τ} (h : s.Timely now) {first : τ} (hfirst : s.arrivals.head? = some first) :
    s.recorded.sum ≤ now - first := by
  obtain ⟨arrivals, harrivals⟩ : ∃ arrivals, s.arrivals = first :: arrivals := ⟨_, List.eq_cons_of_mem_head? hfirst⟩
  have horderly := h.orderly
  rw [h.recorded]
  rw [harrivals] at horderly ⊢
  exact sum_service_le horderly h.departures

end Lib
