import StyleSplit.Script.Production
import StyleSplit.Script.Token

/-! Derivation trees: how a list of tokens follows from the productions of a grammar. -/
namespace StyleSplit.Script

/-- A derivation of a symbol: a token, or a production with a derivation for every
symbol of its body. -/
inductive Tree where
  | leaf (token : Token)
  | node (production : Production) (children : List Tree)
deriving Inhabited

namespace Tree

def symbol : Tree → Symbol
  | leaf token => .terminal token.terminal
  | node production _ => .nonterminal production.head

mutual

def word : Tree → List Token
  | leaf token => [token]
  | node _ children => words children

def words : List Tree → List Token
  | [] => []
  | tree :: rest => tree.word ++ words rest

end

mutual

/-- Whether every node is a production of the grammar with children that derive the
symbols of its body. -/
def valid (g : Grammar) : Tree → Bool
  | leaf _ => true
  | node production children =>
    (g.productions production.head).contains production &&
      children.map symbol == production.body && allValid g children

def allValid (g : Grammar) : List Tree → Bool
  | [] => true
  | tree :: rest => tree.valid g && allValid g rest

end

end Tree

end StyleSplit.Script
