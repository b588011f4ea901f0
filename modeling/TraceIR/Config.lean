/-!
# Recording options

The limits of a trace and the switches of its optimisations. A limit that makes no sense stands
for the default one (`Config.normalize`).
-/

namespace TraceIR

/-- The options of a trace. -/
structure Config where
  /-- The number of slots of the first buffer. -/
  minSize : Int := 32
  /-- The limit on instructions. -/
  maxInstructions : Int := 4000
  /-- The limit on interned constants. -/
  maxConstants : Int := 500
  deadCode : Bool := true
  cse : Bool := true
  fold : Bool := true
  deriving DecidableEq, Repr, Inhabited

/-- Replace limits that make no sense by the default ones. A buffer has at least 16 slots. -/
def Config.normalize (c : Config) : Config :=
  let d : Config := {}
  { c with
    minSize := if c.minSize < 16 then d.minSize else c.minSize
    maxInstructions := if c.maxInstructions ≤ 0 then d.maxInstructions else c.maxInstructions
    maxConstants := if c.maxConstants ≤ 0 then d.maxConstants else c.maxConstants }

end TraceIR
