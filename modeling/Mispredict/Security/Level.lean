/-
  Security levels, the relation between what committed and what speculative
  execution see, and values seen by both.
-/

namespace Mispredict

/-- How secret one view of a value is. -/
inductive Level where
  | low
  | high
  | bot
  | top
  deriving DecidableEq, Repr

namespace Level

/-- The least level above both: `bot` is below all, then `low`, `high` and `top`. -/
def join : Level → Level → Level
  | .bot, l => l
  | l, .bot => l
  | .top, _ => .top
  | _, .top => .top
  | .low, .low => .low
  | _, _ => .high

/-- Whether a level counts as secret, which everything but `low` does. -/
def isSecret (l : Level) : Bool := l != .low

/-- The name of a level. -/
def name : Level → String
  | .low => "Low"
  | .high => "High"
  | .bot => "Bot"
  | .top => "Top"

/-- The levels by their names. -/
def names : List (String × Level) :=
  [("Low", .low), ("High", .high), ("Bot", .bot), ("Top", .top)]

end Level

/-- How two views of a value relate, or what is known of an observation: nothing yet, equal and
    public, equal and secret, different, a leak, or too much to say. -/
inductive Relation where
  | bot
  | eqLow
  | eqHigh
  | diverge
  | leak
  | top
  deriving DecidableEq, Repr

namespace Relation

/-- The least relation above both: `bot` is below `eqLow`, that is below `eqHigh`, `diverge` and
    `leak`, and these three have only `top` above them. -/
def join : Relation → Relation → Relation
  | .bot, r => r
  | r, .bot => r
  | .eqLow, r => r
  | r, .eqLow => r
  | a, b => if a = b then a else .top

/-- Whether an observation with this relation violates non-interference. -/
def isViolation : Relation → Bool
  | .leak => true
  | .top => true
  | _ => false

/-- The name of a relation. -/
def name : Relation → String
  | .bot => "Bot"
  | .eqLow => "EqLow"
  | .eqHigh => "EqHigh"
  | .diverge => "Diverge"
  | .leak => "Leak"
  | .top => "Top"

/-- The relations by their names. -/
def names : List (String × Relation) :=
  [("Bot", .bot), ("EqLow", .eqLow), ("EqHigh", .eqHigh), ("Diverge", .diverge), ("Leak", .leak),
    ("Top", .top)]

/-- The relation between a committed and a speculative level. -/
def ofLevels : (committed speculative : Level) → Relation
  | .bot, _ => .bot
  | _, .bot => .bot
  | .top, _ => .top
  | _, .top => .top
  | .high, .high => .eqHigh
  | .low, .low => .eqLow
  | _, _ => .leak

end Relation

/-- Whether execution is committed or follows a mispredicted path. -/
inductive Mode where
  | committed
  | speculative
  deriving DecidableEq, Repr

namespace Mode

/-- The name of a mode. -/
def name : Mode → String
  | .committed => "NS"
  | .speculative => "Speculative"

/-- The modes by their names. -/
def names : List (String × Mode) := [("NS", .committed), ("Speculative", .speculative)]

end Mode

/-- The level of a value as committed and as speculative execution see it. -/
structure Value where
  committed : Level
  speculative : Level
  deriving DecidableEq, Repr

namespace Value

/-- The same level in both views. -/
def uniform (l : Level) : Value := ⟨l, l⟩

/-- Public in both views. -/
def low : Value := uniform .low

/-- Secret in both views. -/
def high : Value := uniform .high

/-- How the two views of a value relate. -/
def relation (v : Value) : Relation := .ofLevels v.committed v.speculative

/-- Joins each view by itself. -/
def join (v w : Value) : Value :=
  ⟨v.committed.join w.committed, v.speculative.join w.speculative⟩

/-- The level that execution in this mode sees. -/
def view (v : Value) : Mode → Level
  | .committed => v.committed
  | .speculative => v.speculative

/-- What a location that held `v` holds after `w` is written to it: a committed write replaces the
    value, a speculative one adds to the speculative view only. -/
def overwrite (v w : Value) : Mode → Value
  | .committed => w
  | .speculative => ⟨v.committed, v.speculative.join w.speculative⟩

/-- The two levels and their relation, for a reader. -/
def render (v : Value) : String :=
  "(" ++ v.committed.name ++ ", " ++ v.speculative.name ++ ") " ++ v.relation.name

end Value

end Mispredict
