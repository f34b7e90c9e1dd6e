import StyleSplit.Script.Production

/-! The grammar of scripts: JavaScript modules without regular expressions, `switch`,
labels and `yield`. It is ambiguous on purpose. Neither a semicolon nor a line end is
needed between statements; priorities prefer a statement that goes on to one that
stops, a block and a declaration to an expression, and `new` with its arguments to
`new` without. -/
namespace StyleSplit.Script

/-- A part of a rule: a symbol, or a sequence that may be missing. -/
inductive RulePart where
  | symbol (s : Symbol)
  | optional (s : List Symbol)

/-- The bodies that a rule stands for. A body with an optional part comes before the
one without it, and earlier parts decide first. -/
def RulePart.bodies : List RulePart → List (List Symbol)
  | [] => [[]]
  | symbol s :: rest => (bodies rest).map (s :: ·)
  | optional s :: rest => (bodies rest).map (s ++ ·) ++ bodies rest

namespace Rules

def name : RulePart := .symbol (.terminal .name)
def number : RulePart := .symbol (.terminal .number)
def string : RulePart := .symbol (.terminal .string)
def template : RulePart := .symbol (.terminal .template)
def word (w : Keyword) : RulePart := .symbol (.terminal (.keyword w))
def mark (p : Punctuator) : RulePart := .symbol (.terminal (.punctuator p))
def part (n : Nonterminal) : RulePart := .symbol (.nonterminal n)

/-- Parts that may be missing together; an optional part inside them is needed. -/
def option (parts : List RulePart) : RulePart :=
  .optional (parts.flatMap fun
    | .symbol s => [s]
    | .optional s => s)

abbrev Rule := Action × List RulePart

/-- Each part on its own, as parts of what stands around. -/
def oneOf (parts : List RulePart) : List Rule := parts.map fun p => (.splice, [p])

/-- Items between two marks, with commas between them and possibly one at the end. The
items after the first one are `more`. -/
def between (first : Punctuator) (item more : Nonterminal) (last : Punctuator)
    (action : Action) : List Rule :=
  [(action, [mark first, part item, part more, mark .comma, mark last]),
   (action, [mark first, part item, part more, mark last]),
   (action, [mark first, part item, mark .comma, mark last]),
   (action, [mark first, part item, mark last]),
   (action, [mark first, mark last])]

def repeated (more : Nonterminal) (parts : List RulePart) : List Rule :=
  [(.splice, parts), (.splice, part more :: parts)]

def of : Nonterminal → List Rule
  | .program => [(.splice, [option [part .statements]])]
  | .statements => repeated .statements [part .statement]
  | .statement =>
    (.splice, [part .simpleStatement, mark .semicolon]) ::
      oneOf [part .openStatement, part .functionDeclaration, part .classDeclaration,
        part .exportDeclaration, part .ifStatement, part .whileStatement, part .forStatement,
        part .forInStatement, part .tryStatement, part .block, part .emptyStatement]
  | .openStatement => oneOf [part .simpleStatement]
  | .simpleStatement =>
    oneOf [part .variableDeclaration, part .importDeclaration, part .returnStatement,
      part .throwStatement, part .jumpStatement, part .doStatement,
      part .expressionStatement]
  | .semicolon => oneOf [mark .semicolon]
  | .variableDeclaration =>
    [(.declaration, [part .variableKind, part .declarator, option [part .moreDeclarators]])]
  | .variableKind => [(.word, [word .const]), (.word, [word .let_]), (.word, [word .var])]
  | .declarator =>
    [(.declarator, [part .pattern, option [mark .assign, part .assignment]])]
  | .moreDeclarators => repeated .moreDeclarators [mark .comma, part .declarator]
  | .pattern =>
    (.identifier, [name]) :: oneOf [part .objectLiteral, part .arrayLiteral]
  | .functionDeclaration =>
    [(.functionDeclaration, [option [word .async], word .function, option [mark .star], name,
      mark .openParen, part .parameters, mark .closeParen, part .functionBody])]
  | .classDeclaration =>
    [(.classDeclaration, [word .class_, name, option [part .heritage], part .classBody])]
  | .parameters =>
    [(.parameters, [part .parameter, part .moreParameters, mark .comma]),
     (.parameters, [part .parameter, part .moreParameters]),
     (.parameters, [part .parameter, mark .comma]),
     (.parameters, [part .parameter]),
     (.parameters, [])]
  | .parameter =>
    [(.splice, [part .pattern]),
     (.boundNames, [part .pattern, mark .assign, part .assignment]),
     (.boundNames, [mark .ellipsis, part .pattern])]
  | .moreParameters => repeated .moreParameters [mark .comma, part .parameter]
  | .functionBody =>
    [(.body, [mark .openBrace, option [part .statements], mark .closeBrace])]
  | .heritage => [(.splice, [word .extends_, part .callMember])]
  | .classBody =>
    [(.classBody, [mark .openBrace, option [part .moreMembers], mark .closeBrace])]
  | .member => oneOf [part .method, part .field, mark .semicolon]
  | .moreMembers => repeated .moreMembers [part .member]
  | .field =>
    [(.field, [option [word .static], part .propertyKey,
      option [mark .assign, part .assignment], option [part .semicolon]])]
  | .importDeclaration =>
    [(.imports, [word .import_, part .importClause, name, string]),
     (.imports, [word .import_, string])]
  | .importClause =>
    [(.splice, [part .importDefault]),
     (.splice, [part .importNamespace]),
     (.splice, [part .namedImports]),
     (.splice, [part .importDefault, mark .comma, part .namedImports]),
     (.splice, [part .importDefault, mark .comma, part .importNamespace])]
  | .importDefault => [(.lastName, [name])]
  | .importNamespace => [(.lastName, [mark .star, name, name])]
  | .namedImports =>
    between .openBrace .importSpecifier .moreImportSpecifiers .closeBrace .splice
  | .importSpecifier => [(.lastName, [part .propertyName, option [name, name]])]
  | .moreImportSpecifiers =>
    repeated .moreImportSpecifiers [mark .comma, part .importSpecifier]
  | .exportDeclaration =>
    [(.exported, [word .export_, part .variableDeclaration, option [part .semicolon]]),
     (.exported, [word .export_, part .functionDeclaration]),
     (.exported, [word .export_, part .classDeclaration]),
     (.exported, [word .export_, word .default, part .functionDeclaration]),
     (.exported, [word .export_, word .default, part .classDeclaration]),
     (.exported, [word .export_, word .default, part .assignment, option [part .semicolon]]),
     (.exported, [word .export_, part .exportClause, option [name, string],
       option [part .semicolon]]),
     (.exported, [word .export_, mark .star, option [name, part .propertyName], name, string,
       option [part .semicolon]])]
  | .exportClause =>
    between .openBrace .exportSpecifier .moreExportSpecifiers .closeBrace .discard
  | .exportSpecifier =>
    [(.discard, [part .propertyName, option [name, part .propertyName]])]
  | .moreExportSpecifiers =>
    repeated .moreExportSpecifiers [mark .comma, part .exportSpecifier]
  | .returnStatement => [(.control, [word .return_, option [part .expression]])]
  | .throwStatement => [(.control, [word .throw, part .expression])]
  | .jumpStatement =>
    [(.control, [word .break_, option [name]]), (.control, [word .continue_, option [name]])]
  | .ifStatement =>
    [(.control, [word .if_, mark .openParen, part .expression, mark .closeParen,
      part .statement, option [word .else_, part .statement]])]
  | .whileStatement =>
    [(.control, [word .while_, mark .openParen, part .expression, mark .closeParen,
      part .statement])]
  | .doStatement =>
    [(.control, [word .do_, part .statement, word .while_, mark .openParen,
      part .expression, mark .closeParen])]
  | .forStatement =>
    [(.control, [word .for_, mark .openParen, option [part .forInit], mark .semicolon,
      option [part .expression], mark .semicolon, option [part .expression],
      mark .closeParen, part .statement])]
  | .forInit => oneOf [part .variableDeclaration, part .expression]
  | .forInStatement =>
    [(.control, [word .for_, mark .openParen, part .forBinding, word .in_, part .expression,
      mark .closeParen, part .statement]),
     (.control, [word .for_, mark .openParen, part .forBinding, name, part .expression,
      mark .closeParen, part .statement])]
  | .forBinding =>
    [(.forBinding, [part .variableKind, part .pattern]), (.forBinding, [part .callMember])]
  | .tryStatement =>
    [(.control, [word .try_, part .block, option [part .catchClause],
      option [part .finallyClause]])]
  | .catchClause =>
    [(.catchClause, [word .catch_, option [mark .openParen, part .pattern, mark .closeParen],
      part .block])]
  | .finallyClause => [(.splice, [word .finally_, part .block])]
  | .block => [(.block, [mark .openBrace, option [part .statements], mark .closeBrace])]
  | .expressionStatement => [(.expressionStatement, [part .expression])]
  | .emptyStatement => [(.splice, [mark .semicolon])]
  | .expression =>
    [(.splice, [part .assignment]),
     (.compound, [part .expression, mark .comma, part .assignment])]
  | .assignment =>
    [(.splice, [part .conditional]),
     (.assignment, [part .callMember, part .assignOperator, part .assignment]),
     (.splice, [part .arrowFunction])]
  | .assignOperator =>
    oneOf [mark .assign, mark .plusAssign, mark .minusAssign, mark .starAssign,
      mark .slashAssign, mark .percentAssign, mark .powerAssign, mark .leftAssign,
      mark .rightAssign, mark .unsignedAssign, mark .andAssign, mark .orAssign,
      mark .xorAssign, mark .bothAssign, mark .eitherAssign, mark .nullishAssign]
  | .conditional =>
    [(.splice, [part .binary]),
     (.compound, [part .binary, mark .question, part .assignment, mark .colon,
       part .assignment])]
  | .binary =>
    [(.splice, [part .unary]),
     (.compound, [part .binary, part .binaryOperator, part .unary])]
  | .binaryOperator =>
    oneOf [mark .plus, mark .minus, mark .star, mark .slash, mark .percent, mark .power,
      mark .equal, mark .notEqual, mark .same, mark .notSame, mark .less, mark .greater,
      mark .lessEqual, mark .greaterEqual, mark .left, mark .right, mark .unsigned,
      mark .bitAnd, mark .bitOr, mark .bitXor, mark .both, mark .either, mark .nullish,
      word .in_, word .instanceOf]
  | .unary =>
    [(.splice, [part .suffixUpdate]),
     (.negation, [mark .minus, part .unary]),
     (.compound, [part .unaryOperator, part .unary]),
     (.update, [part .updateOperator, part .unary])]
  | .unaryOperator =>
    oneOf [mark .bang, mark .plus, mark .tilde, word .typeOf, word .void, word .delete,
      word .await]
  | .updateOperator => oneOf [mark .increment, mark .decrement]
  | .suffixUpdate =>
    [(.splice, [part .callMember]), (.update, [part .callMember, part .updateOperator])]
  | .callMember =>
    [(.splice, [part .primary]),
     (.member, [part .callMember, mark .dot, part .propertyName]),
     (.member, [part .callMember, mark .optionalDot, part .propertyName]),
     (.compound, [part .callMember, mark .openBracket, part .expression,
       mark .closeBracket]),
     (.compound, [part .callMember, mark .optionalDot, mark .openBracket, part .expression,
       mark .closeBracket]),
     (.call, [part .callMember, part .arguments]),
     (.call, [part .callMember, mark .optionalDot, part .arguments]),
     (.compound, [part .callMember, template]),
     (.splice, [part .construction]),
     (.splice, [part .bareConstruction])]
  | .construction => [(.construction, [word .new, part .constructor, part .arguments])]
  | .bareConstruction => [(.construction, [word .new, part .constructor])]
  | .constructor =>
    [(.splice, [part .primary]),
     (.member, [part .constructor, mark .dot, part .propertyName]),
     (.compound, [part .constructor, mark .openBracket, part .expression,
       mark .closeBracket])]
  | .arguments => between .openParen .element .moreElements .closeParen .arguments
  | .element => oneOf [part .assignment, part .spread]
  | .moreElements => repeated .moreElements [mark .comma, part .element]
  | .spread => [(.compound, [mark .ellipsis, part .assignment])]
  | .primary =>
    [(.identifier, [name]),
     (.number, [number]),
     (.string, [string]),
     (.template, [template]),
     (.true_, [word .true_]),
     (.false_, [word .false_]),
     (.null, [word .null]),
     (.compound, [word .this]),
     (.compound, [word .super]),
     (.splice, [part .arrayLiteral]),
     (.splice, [part .objectLiteral]),
     (.splice, [part .functionExpression]),
     (.splice, [part .classExpression]),
     (.splice, [mark .openParen, part .expression, mark .closeParen])]
  | .arrayLiteral => between .openBracket .element .moreElements .closeBracket .list
  | .objectLiteral => between .openBrace .property .moreProperties .closeBrace .mapping
  | .property =>
    [(.keyedEntry, [part .propertyKey, mark .colon, part .assignment]),
     (.computedEntry, [mark .openBracket, part .assignment, mark .closeBracket, mark .colon,
       part .assignment]),
     (.shorthandEntry, [name]),
     (.shorthandEntry, [name, mark .assign, part .assignment]),
     (.spreadEntry, [mark .ellipsis, part .assignment]),
     (.splice, [part .method])]
  | .moreProperties => repeated .moreProperties [mark .comma, part .property]
  | .method =>
    [(.method, [option [part .moreModifiers], part .propertyKey, mark .openParen,
      part .parameters, mark .closeParen, part .functionBody])]
  | .modifier => oneOf [word .async, word .static, mark .star, name]
  | .moreModifiers => repeated .moreModifiers [part .modifier]
  | .propertyKey =>
    [(.nameKey, [part .propertyName]), (.stringKey, [string]), (.numberKey, [number])]
  | .propertyName =>
    (Action.word, [name]) ::
      ([.const, .let_, .var, .function, .async, .class_, .extends_, .static, .import_,
        .export_, .default, .return_, .throw, .break_, .continue_, .if_, .else_, .while_, .do_,
        .for_, .in_, .instanceOf, .try_, .catch_, .finally_, .new, .typeOf, .void, .delete,
        .await, .true_, .false_, .null, .this, .super] : List Keyword).map
        fun w => (Action.word, [word w])
  | .functionExpression =>
    [(.function, [option [word .async], word .function, option [mark .star], option [name],
      mark .openParen, part .parameters, mark .closeParen, part .functionBody])]
  | .classExpression =>
    [(.compound, [word .class_, option [name], option [part .heritage], part .classBody])]
  | .arrowFunction =>
    [(.arrow, [option [word .async], part .arrowParameters, mark .arrow, part .arrowBody])]
  | .arrowParameters =>
    [(.lastName, [name]),
     (.splice, [mark .openParen, part .parameters, mark .closeParen])]
  | .arrowBody => oneOf [part .functionBody, part .assignment]

def priority : Nonterminal → Int
  | .openStatement | .bareConstruction => -1
  | .functionDeclaration | .classDeclaration | .functionBody | .block => 2
  | _ => 0

def productions (n : Nonterminal) : List Production :=
  let bodies := (of n).flatMap fun (action, parts) =>
    (RulePart.bodies parts).map fun body => (action, body)
  bodies.zipIdx.map fun ((action, body), order) =>
    { head := n, order, body, priority := priority n, action }

end Rules

def grammar : Grammar := { start := .program, productions := Rules.productions }

end StyleSplit.Script
