import PipeExpr.Library.Numbers
import PipeExpr.Library.Objects
import PipeExpr.Library.Pipes
import PipeExpr.Library.Strings

/-!
# The standard library
-/

namespace PipeExpr

namespace Library

/-- The functions of the standard library by name. -/
def standardFunctions : Fields HostFunction :=
  [("len", Functions.len), ("substr", Functions.substr), ("contains", Functions.contains),
   ("startsWith", Functions.startsWith), ("endsWith", Functions.endsWith),
   ("upper", Functions.upper), ("lower", Functions.lower), ("trim", Functions.trim),
   ("split", Functions.split), ("join", Functions.join), ("replace", Functions.replace),
   ("matches", Functions.matches),
   ("abs", Functions.abs), ("floor", Functions.floor), ("ceil", Functions.ceil),
   ("sqrt", Functions.sqrt), ("round", Functions.round), ("min", Functions.min),
   ("max", Functions.max), ("sum", Functions.sum), ("avg", Functions.avg),
   ("keys", Functions.keys), ("values", Functions.values), ("type", Functions.type),
   ("str", Functions.str), ("num", Functions.num)]

/-- The handlers of the standard library by name, beside those of the language itself. -/
def standardHandlers : Fields PipeHandler :=
  [("filter", .filter), ("reduce", .reduce), ("find", .find), ("some", .some), ("every", .every),
   ("unique", .unique), ("sort", .sort), ("groupBy", .groupBy), ("flatMap", .flatMap)]

/-- The standard library: everything that programs can use unless their host says otherwise. -/
def standard : Library := ⟨standardFunctions, basic.handlers ++ standardHandlers⟩

end Library

end PipeExpr
