import Std.Data.TreeMap
import LoxLang.Binding.Survey

/-!
The distances known to a running program: for each local reference the number of scopes between it
and its binding. They are kept as long as the session, since functions outlive the source that
declared them.
-/
namespace LoxLang

/-- Distances by the identity of their reference. -/
structure Distances where
  entries : Std.TreeMap Nat Nat

namespace Distances

/-- No distances: every reference is global. -/
def empty : Distances := ⟨∅⟩

/-- The distance of a reference, unless it is global. -/
def get? (d : Distances) (target : Reference) : Option Nat :=
  d.entries[target.id]?

def insert (d : Distances) (id distance : Nat) : Distances :=
  ⟨d.entries.insert id distance⟩

def record (d : Distances) (found : List DistanceEntry) : Distances :=
  found.foldl (fun d entry => d.insert entry.id entry.distance) d

@[simp] theorem get?_empty (target : Reference) : empty.get? target = none := by
  simp [get?, empty]

theorem get?_insert (d : Distances) (id distance : Nat) (target : Reference) :
    (d.insert id distance).get? target =
      if id = target.id then some distance else d.get? target := by
  simp [get?, insert, Std.TreeMap.getElem?_insert]

end Distances

end LoxLang
