import ContentSpaces.Text.Blank

/-!
# Kinds of resources, spaces and reference lists

A space holds one collection per kind. Draft, test and custom belong to the users and are promoted
one into the next; standard receives the content of a remote catalog. Integrations list their
decoders, rules and kvdbs, a policy lists integrations and filters.
-/

namespace ContentSpaces

inductive Kind where
  | policy
  | integration
  | decoder
  | kvdb
  | rule
  | filter
  | ioc
  deriving DecidableEq, Repr, Inhabited

namespace Kind

/-- Every kind, in the order in which collections are searched. -/
def all : List Kind := [.policy, .integration, .decoder, .kvdb, .rule, .filter, .ioc]

def promotable : List Kind := [.policy, .integration, .decoder, .kvdb, .rule, .filter]

def isPromotable (kind : Kind) : Bool := kind != .ioc

def isRegistrable : Kind → Bool
  | .integration | .rule => true
  | _ => false

def name : Kind → String
  | .policy => "policy"
  | .integration => "integration"
  | .decoder => "decoder"
  | .kvdb => "kvdb"
  | .rule => "rule"
  | .filter => "filter"
  | .ioc => "ioc"

def plural : Kind → String
  | .policy => "policy"
  | .integration => "integrations"
  | .decoder => "decoders"
  | .kvdb => "kvdbs"
  | .rule => "rules"
  | .filter => "filters"
  | .ioc => "iocs"

def index : Kind → Nat
  | .policy => 0
  | .integration => 1
  | .decoder => 2
  | .kvdb => 3
  | .rule => 4
  | .filter => 5
  | .ioc => 6

def parse? (text : String) : Option Kind :=
  let word := Text.lower (Text.trim text)
  all.find? fun kind => kind.name == word || kind.plural == word

theorem index_injective {a b : Kind} (h : a.index = b.index) : a = b := by
  cases a <;> cases b <;> first | rfl | cases h

theorem mem_all (kind : Kind) : kind ∈ all := by cases kind <;> decide

end Kind

inductive Space where
  | draft
  | test
  | custom
  | standard
  deriving DecidableEq, Repr, Inhabited

namespace Space

/-- Every space, in promotion order. -/
def all : List Space := [.draft, .test, .custom, .standard]

/-- The spaces that always have a policy. -/
def ofUsers : List Space := [.draft, .test, .custom]

def name : Space → String
  | .draft => "draft"
  | .test => "test"
  | .custom => "custom"
  | .standard => "standard"

def index : Space → Nat
  | .draft => 0
  | .test => 1
  | .custom => 2
  | .standard => 3

def target? : Space → Option Space
  | .draft => some .test
  | .test => some .custom
  | .custom => some .standard
  | .standard => none

def ofWord? : String → Option Space
  | "draft" => some .draft
  | "test" | "testing" => some .test
  | "custom" => some .custom
  | "standard" => some .standard
  | _ => none

theorem index_injective {a b : Space} (h : a.index = b.index) : a = b := by
  cases a <;> cases b <;> first | rfl | cases h

end Space

/-- A list of IDs in the document of an integration or a policy. -/
inductive RefList where
  | decoders
  | rules
  | kvdbs
  | integrations
  | filters
  deriving DecidableEq, Repr

namespace RefList

def all : List RefList := [.decoders, .rules, .kvdbs, .integrations, .filters]

/-- The lists of an integration, in the order of its aggregate digest. -/
def hashOrder : List RefList := [.decoders, .kvdbs, .rules]

/-- The lists of an integration, in the order in which they hold up its deletion. -/
def deleteOrder : List RefList := [.decoders, .rules, .kvdbs]

def key : RefList → String
  | .decoders => "decoders"
  | .rules => "rules"
  | .kvdbs => "kvdbs"
  | .integrations => "integrations"
  | .filters => "filters"

def childKind : RefList → Kind
  | .decoders => .decoder
  | .rules => .rule
  | .kvdbs => .kvdb
  | .integrations => .integration
  | .filters => .filter

def containerKind : RefList → Kind
  | .decoders | .rules | .kvdbs => .integration
  | .integrations | .filters => .policy

/-- The list in which an integration holds children of a kind. -/
def ofIntegrationChild? : Kind → Option RefList
  | .decoder => some .decoders
  | .rule => some .rules
  | .kvdb => some .kvdbs
  | _ => none

def ofChild? : Kind → Option RefList
  | .integration => some .integrations
  | .filter => some .filters
  | kind => ofIntegrationChild? kind

def ofContainer : Kind → List RefList
  | .integration => hashOrder
  | .policy => [.integrations, .filters]
  | _ => []

def ofKey? (text : String) : Option RefList := all.find? fun list => list.key == text

end RefList

end ContentSpaces
