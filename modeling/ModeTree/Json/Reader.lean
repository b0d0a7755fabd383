import ModeTree.Json.Token

/-!
# Reading JSON

The tokens of a text are read one by one; what is open is kept as a list of frames, the innermost
first.
-/

namespace ModeTree.Json

/-- An array or an object that is being read, with what it holds so far, latest first. -/
inductive Frame where
  | items (done : List Json)
  | members (done : List (Option String × Json)) (key : Option String)

/-- What has to come next in the innermost frame. -/
inductive Next where
  | value
  | firstItem
  | firstKey
  | key (done : List (Option String × Json))
  | colon (done : List (Option String × Json)) (key : Option String)
  | separator (v : Json)

/-- What is open, innermost first, and what has to come next. -/
structure Reading where
  frames : List Frame
  next : Next

namespace Reading

/-- The first token of a value. -/
def open? (frames : List Frame) : Token → Option Reading
  | .scalar v => some ⟨frames, .separator v⟩
  | .mark '[' => some ⟨frames, .firstItem⟩
  | .mark '\x7b' => some ⟨frames, .firstKey⟩
  | _ => none

/-- The token after a value in an array or an object. -/
def close? (v : Json) : List Frame → Token → Option Reading
  | .items done :: frames, .mark ',' => some ⟨.items (v :: done) :: frames, .value⟩
  | .items done :: frames, .mark ']' => some ⟨frames, .separator (.arr (v :: done).reverse)⟩
  | .members done key :: frames, .mark ',' => some ⟨frames, .key ((key, v) :: done)⟩
  | .members done key :: frames, .mark '\x7d' =>
    some ⟨frames, .separator (.obj ((key, v) :: done).reverse)⟩
  | _, _ => none

/-- One token. -/
def step : Reading → Token → Option Reading
  | ⟨frames, .value⟩, t => open? frames t
  -- an array may be closed at once, but not behind a comma
  | ⟨frames, .firstItem⟩, .mark ']' => some ⟨frames, .separator (.arr [])⟩
  | ⟨frames, .firstItem⟩, t => open? (.items [] :: frames) t
  | ⟨frames, .firstKey⟩, .mark '\x7d' => some ⟨frames, .separator (.obj [])⟩
  | ⟨frames, .firstKey⟩, .scalar (.str k) => some ⟨frames, .colon [] k⟩
  | ⟨frames, .key done⟩, .scalar (.str k) => some ⟨frames, .colon done k⟩
  | ⟨frames, .colon done k⟩, .mark ':' => some ⟨.members done k :: frames, .value⟩
  | ⟨frames, .separator v⟩, t => close? v frames t
  | _, _ => none

/-- The value that has been read, when nothing is open any more. -/
def result? : Reading → Option Json
  | ⟨[], .separator v⟩ => some v
  | _ => none

end Reading

/-- The value of a sequence of tokens. -/
def ofTokens? (tokens : List Token) : Option Json := do
  let reading ← tokens.foldlM Reading.step ⟨[], .value⟩
  reading.result?

/-- The value of a JSON text. -/
def parse (s : String) : Option Json := do
  let tokens ← tokens? s.toList
  ofTokens? tokens

end ModeTree.Json
