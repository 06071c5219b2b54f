/-!
# Global names

The names that every program may use without a declaration.

## Main definitions

* `defaultGlobals`
-/

namespace Declass

/-- The names of the global environment: values, functions, constructors and namespaces. -/
def defaultGlobals : List String :=
  ["Infinity", "NaN", "undefined",
   "decodeURI", "decodeURIComponent", "encodeURI", "encodeURIComponent", "escape", "eval",
   "isFinite", "isNaN", "parseFloat", "parseInt", "unescape",
   "Array", "Boolean", "Date", "Error", "EvalError", "Function", "Number", "Object", "RangeError",
   "ReferenceError", "RegExp", "String", "SyntaxError", "TypeError", "URIError",
   "JSON", "Math"]

end Declass
