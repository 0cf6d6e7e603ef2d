import RoutineHttp.Text
import RoutineHttp.Lib.Dictionary

/-! Query and path parameters of a request. -/
namespace RoutineHttp

structure Parameters where
  params : Lib.Dictionary Str Str := ∅
  deriving DecidableEq

namespace Parameters

def size (p : Parameters) : Nat := p.params.entries.length

def contains (p : Parameters) (key : Str) : Bool := decide (key ∈ p.params)

/-- The first value emplaced under a key stays. -/
def emplace (p : Parameters) (key value : Str) : Parameters := ⟨Lib.emplace p.params key value⟩

/-- `operator[]`, also the constant one: the map is mutable and a missing key is created. -/
def getOrCreate (p : Parameters) (key : Str) : Str × Parameters :=
  let found := Lib.getOrCreate p.params key []
  (found.1, ⟨found.2⟩)

end Parameters
end RoutineHttp
