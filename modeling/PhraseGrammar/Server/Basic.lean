import PhraseGrammar.Engine.Basic
import PhraseGrammar.Grammar.Export

set_option autoImplicit false

/-! # The phrase server

The server keeps one engine, the folder its grammar comes from, and the settings of its engines.
Requests expand queries, count options, show the grammar, or put another grammar in its place.

A request that replaces the grammar builds a whole new engine first and puts it in place only if
that succeeds. It runs in two sections: the first reads what it needs of the server
(`reloadPlan`), the second installs the engine (`install`), and the engine is built between the
two without the server (`Engine.ofFolder`, `Engine.ofMapping`).
-/

namespace PhraseGrammar

/-- What the server keeps between requests. -/
structure Server where
  engine : Engine Keystream
  root : Text
  settings : EngineSettings

/-- What the server finds around it when it serves a request: the files, the working folder, and
a fresh key for an engine without a seed. -/
structure Surroundings where
  read : Reader
  workingFolder : Text
  freshKey : Vector UInt32 8

/-- A request. -/
inductive Request where
  /-- A phrase of a query. -/
  | generate (query : Option Text)
  /-- A phrase of a query, with forced texts. -/
  | generateWith (query : Text) (overrides : Overrides)
  /-- The bounds of the options of a query. -/
  | count (query : Option Text)
  /-- What validation finds in the grammar. -/
  | validate
  /-- The names of the categories. -/
  | categories
  /-- The grammar. -/
  | grammar
  /-- Loads the grammar of a folder, or of the present folder anew. -/
  | reload (root : Option Text)
  /-- Puts the grammar of a mapping in place. -/
  | replace (mapping : Mapping)

/-- What a response carries. -/
inductive Body where
  | text (t : Text)
  | json (value : Json)

/-- The text that is sent. -/
def Body.toText : Body → Text
  | text t => t
  | json value => value.render

/-- A response. -/
structure Response where
  status : Nat
  body : Body

namespace Response

/-- A successful response with a text. -/
def ok (t : Text) : Response := ⟨200, .text t⟩

/-- A successful response with a value. -/
def okJson (value : Json) : Response := ⟨200, .json value⟩

/-- The answer to a request without a query, or with a blank one. -/
def noQuery : Response := ⟨400, .text "Missing or empty query".toList⟩

/-- The status of an error: a fault of the grammar, of the engine itself, or of the query. -/
def statusOf : EngineError → Nat
  | .grammar _ | .invalid _ _ => 422
  | .expansion e => if e.isInternal then 500 else 400

/-- The response to a request that failed. -/
def ofError (e : EngineError) : Response := ⟨statusOf e, .text e.message.toList⟩

/-- The response to a request for a phrase. -/
def ofPhrase : Except EngineError Text → Response
  | .ok phrase => ok phrase
  | .error e => ofError e

/-- The response to a request for bounds. -/
def ofBounds : Except EngineError Bounds → Response
  | .ok bounds =>
    okJson (.object [("lower_bound".toList, .number bounds.lower),
      ("upper_bound".toList, .number bounds.upper)])
  | .error e => ofError e

/-- The response to a grammar that was put in place. -/
def loaded (engine : Engine Keystream) : Response :=
  ok ("Loaded " ++ toString engine.grammar.size ++ " categories").toList

end Response

namespace Server

/-- A query that is there and not blank. -/
def query? (query : Option Text) : Option Text := query.filter fun q => !q.trim.isEmpty

/-! ## Replacing the grammar -/

/-- The folder and the settings of a reload: the given folder, or the present one. -/
def reloadPlan (s : Server) (around : Surroundings) (root : Option Text) :
    Text × EngineSettings :=
  ((root.map (Path.folder around.workingFolder)).getD s.root, s.settings)

/-- Puts an engine in place, and the folder of its grammar if it comes from one. -/
def install (s : Server) (engine : Engine Keystream) (root : Option Text) : Server :=
  { s with engine, root := root.getD s.root }

/-- The response to a grammar that was built, and the server with it if it could be built. -/
def conclude (s : Server) (built : Except EngineError (Engine Keystream)) (root : Option Text) :
    Response × Server :=
  match built with
  | .ok engine => (.loaded engine, s.install engine root)
  | .error e => (.ofError e, s)

/-! ## Serving a request -/

/-- The response to a request, and the server after it. -/
def handle (s : Server) (around : Surroundings) : Request → Response × Server
  | .generate query =>
    match query? query with
    | none => (.noQuery, s)
    | some query =>
      let (phrase, engine) := s.engine.phrase query
      (.ofPhrase phrase, { s with engine })
  | .generateWith query overrides =>
    let (phrase, engine) := s.engine.phrase query overrides
    (.ofPhrase phrase, { s with engine })
  | .count query =>
    match query? query with
    | none => (.noQuery, s)
    | some query =>
      let (bounds, engine) := s.engine.options query
      (.ofBounds bounds, { s with engine })
  | .validate =>
    let (findings, engine) := s.engine.validate
    (.okJson (.array (findings.map fun f => .string f.message.toList)), { s with engine })
  | .categories => (.ok (Text.joinLines s.engine.grammar.names), s)
  | .grammar => (.okJson s.engine.grammar.toJson, s)
  | .reload root =>
    let (root, settings) := s.reloadPlan around root
    s.conclude (Engine.ofFolder settings around.freshKey around.read root) (some root)
  | .replace mapping => s.conclude (Engine.ofMapping s.settings around.freshKey mapping) none

end Server

end PhraseGrammar
