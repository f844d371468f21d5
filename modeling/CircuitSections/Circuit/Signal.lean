import CircuitSections.Ordered.Ascending

/-!
# Signals

A signal names a prototype of one kind in one quality.  Signals are ordered by
kind, then name, then quality, and texts by their code points.
-/

namespace CircuitSections

/-- The kind of prototype that a signal refers to. -/
inductive SignalKind
  | item
  | fluid
  | virtual
  deriving DecidableEq

namespace SignalKind

def rank : SignalKind → Nat
  | .item => 0
  | .fluid => 1
  | .virtual => 2

instance : Ord SignalKind := ⟨compareOn rank⟩

instance : Std.TransOrd SignalKind :=
  inferInstanceAs (Std.TransCmp (compareOn rank))

instance : Std.LawfulEqOrd SignalKind where
  compare_self := Std.ReflOrd.compare_self
  eq_of_compare {a b} equal := by
    cases a <;> cases b <;> first | rfl | exact absurd equal (by decide)

def text : SignalKind → String
  | .item => "item"
  | .fluid => "fluid"
  | .virtual => "virtual"

end SignalKind

/-- A signal whatever its quality. -/
structure BaseSignal where
  kind : SignalKind
  name : String
  deriving DecidableEq

namespace BaseSignal

instance : Ord BaseSignal := ⟨compareLex (compareOn kind) (compareOn name)⟩

instance : Std.TransOrd BaseSignal :=
  inferInstanceAs (Std.TransCmp (compareLex (compareOn kind) (compareOn name)))

instance : Std.LawfulEqOrd BaseSignal where
  compare_self := Std.ReflOrd.compare_self
  eq_of_compare {a b} equal := by
    obtain ⟨kinds, names⟩ := compareLex_eq_eq.mp equal
    cases a
    cases b
    cases Std.LawfulEqOrd.eq_of_compare (α := SignalKind) kinds
    cases Std.LawfulEqOrd.eq_of_compare (α := String) names
    rfl

end BaseSignal

/-- A signal: kind, name and quality. -/
structure Signal where
  kind : SignalKind
  name : String
  quality : String
  deriving DecidableEq

namespace Signal

/-- The quality of a signal for which none is given. -/
def normal : String := "normal"

def ofName (kind : SignalKind) (name : String) : Signal := ⟨kind, name, normal⟩

def withQuality (s : Signal) (quality : String) : Signal := { s with quality }

/-- The order by kind, then name, then quality. -/
def order : Signal → Signal → Ordering :=
  compareLex (compareOn kind) (compareLex (compareOn name) (compareOn quality))

instance : Ord Signal := ⟨order⟩

instance : Std.TransOrd Signal :=
  inferInstanceAs (Std.TransCmp
    (compareLex (compareOn kind)
      (compareLex (compareOn name) (compareOn quality))))

instance : Std.LawfulEqOrd Signal where
  compare_self := Std.ReflOrd.compare_self
  eq_of_compare {a b} equal := by
    obtain ⟨kinds, later⟩ := compareLex_eq_eq.mp equal
    obtain ⟨names, qualities⟩ := compareLex_eq_eq.mp later
    cases a
    cases b
    cases Std.LawfulEqOrd.eq_of_compare (α := SignalKind) kinds
    cases Std.LawfulEqOrd.eq_of_compare (α := String) names
    cases Std.LawfulEqOrd.eq_of_compare (α := String) qualities
    rfl

/-- The signal without its quality. -/
def base (s : Signal) : BaseSignal := ⟨s.kind, s.name⟩

/-- Whether a signal is some quality of the given one. -/
def hasBase (s : Signal) (base : BaseSignal) : Bool :=
  s.kind = base.kind && s.name = base.name

/-- The text of a signal; normal quality is left out. -/
def text (s : Signal) : String :=
  if s.quality = normal then s.kind.text ++ "/" ++ s.name
  else s.kind.text ++ "/" ++ s.name ++ "@" ++ s.quality

end Signal

abbrev SignalSet := Ascending fun signal : Signal => signal

end CircuitSections
