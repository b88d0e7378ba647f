import Mathlib.Algebra.BigOperators.Group.List.Basic
import Mathlib.Algebra.Order.Group.Defs

/-!
# Sessions of a counter

A counter is reported from time to time.  It grows while a session lasts; a session
ends with a report that says so, or just before a report that is smaller than an
earlier one of the session.  What was counted is the largest report of each session.
-/

namespace HeypAgents
namespace CounterSessions

universe u

variable {α : Type u}

inductive Report (α : Type u) where
  | update (counter : α)
  | finish (counter : α)
deriving DecidableEq, Repr

structure Sessions (α : Type u) where
  closed : List (List α) := []
  current : List α := []

variable [LinearOrder α] [AddCommMonoid α]

def largest (session : List α) : α := session.foldl max 0

def Sessions.report (s : Sessions α) : Report α → Sessions α
  | .update counter =>
    if counter < largest s.current then
      { closed := s.closed ++ [s.current], current := [counter] }
    else { s with current := s.current ++ [counter] }
  | .finish counter => { closed := s.closed ++ [s.current ++ [counter]], current := [] }

def sessions (reports : List (Report α)) : Sessions α := reports.foldl Sessions.report {}

def Sessions.counted (s : Sessions α) : α := (s.closed.map largest).sum

def Sessions.total (s : Sessions α) : α := s.counted + largest s.current

@[simp] theorem largest_nil : largest ([] : List α) = 0 := rfl

@[simp] theorem largest_concat (session : List α) (counter : α) :
    largest (session ++ [counter]) = max (largest session) counter := by
  simp [largest]

variable {s : Sessions α} {counter : α}

theorem counted_report_of_lt (h : counter < largest s.current) :
    (s.report (.update counter)).counted = s.counted + largest s.current ∧
      (s.report (.update counter)).current = [counter] := by
  simp [Sessions.report, h, Sessions.counted]

theorem counted_report_of_le (h : largest s.current ≤ counter) :
    (s.report (.update counter)).counted = s.counted ∧
      (s.report (.update counter)).current = s.current ++ [counter] := by
  simp [Sessions.report, not_lt.mpr h, Sessions.counted]

theorem counted_report_finish :
    (s.report (.finish counter)).counted = s.counted + max (largest s.current) counter ∧
      (s.report (.finish counter)).current = [] := by
  simp [Sessions.report, Sessions.counted]

end CounterSessions
end HeypAgents
