/-
Records whose fields can be looked up by name.
-/
import ExternalSort.Value
import Std.Data.HashMap
import Std.Data.TreeMap

namespace ExternalSort

/-- A record whose fields can be looked up by name. -/
class HasFields (R : Type) where
  field : R → String → Option Value

instance : HasFields (Std.TreeMap String Value) := ⟨fun m name => m[name]?⟩

instance : HasFields (Std.HashMap String Value) := ⟨fun m name => m[name]?⟩

end ExternalSort
