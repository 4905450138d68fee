import BonsaiNinja.Idg.Place

namespace BonsaiNinja.LangApi
export Idg (FileId FuncId Text Span)

inductive DeclKind where
  | module | nameSpace | function | method | constructor | classDecl | struct | trait | interface | enum | enumVariant
  | typeAlias | global | const | static | importDecl | field | other
  deriving DecidableEq, Repr

def DeclKind.callable : DeclKind → Bool
  | .function | .method | .constructor => true
  | _ => false

inductive CallKind where
  | function | method | constructor | macroCall | operator | indirect | channelSend | indexWrite
  deriving DecidableEq, Repr

inductive AssignValueKind where
  | literal | callResult | propertyRead | yieldResult | destructure | callableReference | addressOfAggregate | compound
  | wholeValueSelection | unknown
  deriving DecidableEq, Repr

inductive LoopKind where
  | for | while | doWhile | forEach | loop
  deriving DecidableEq, Repr

inductive LoopControlTarget where
  | label (label : Text)
  | levels (levels : Nat)
  deriving DecidableEq, Repr

inductive ArgumentPassingMode where
  | value | writeBack
  deriving DecidableEq, Repr

structure CallArg where
  span : Span
  passingMode : ArgumentPassingMode
  name : Option Text
  valueText : Text
  place : Option Text
  sourceNames : List Text
  deriving DecidableEq, Repr

structure CatchArmFact where
  span : Span
  parameter : Option Text
  types : List Text
  deriving DecidableEq, Repr

inductive FlowEvent where
  | call (span : Span) (name : Text) (receiver : Option Text) (receiverTypes : List Text) (callKind : CallKind)
    (args : List CallArg)
  | branch (span : Span) (condition : Option Text) (thenEvents elseEvents : List FlowEvent)
  | loop (span : Span) (loopKind : LoopKind) (label : Option Text) (conditionEvents updateEvents body : List FlowEvent)
  | assign (span : Span) (target : Text) (sourceName sourceCall : Option Text) (sourceCallArgs sourceNames : List Text)
    (declaresNewBinding : Bool) (valueKind : Option AssignValueKind)
  | aggregateAssign (span : Span) (target : Text) (typeName : Option Text)
  | return (span : Span) (valueKind : Option AssignValueKind) (valueText valueName : Option Text)
  | throw (span : Span) (valueName thrownType : Option Text)
  | try (span : Span) (body catchEvents finallyEvents : List FlowEvent) (catchParam : Option Text) (catchTypes : List Text)
    (catchArms : List CatchArmFact)
  | break (span : Span) (target : Option LoopControlTarget)
  | continue (span : Span) (target : Option LoopControlTarget)
  | yield (span : Span) (valueText : Option Text)
  | await (span : Span) (valueName : Option Text)
  | defer (span : Span) (body : List FlowEvent)
  | using (span : Span) (body : List FlowEvent)
  | lifecycle (span : Span) (name transition : Text)
  deriving Repr, BEq

abbrev ModulePath := List Text

structure Decl where
  symbol : FuncId
  kind : DeclKind
  name : Text
  qualifiedName : Option Text
  modulePath : ModulePath
  span : Span
  nameSpan : Span
  parent : Option FuncId
  flowEvents : List FlowEvent
  params : List Text
  implicitReceiverNames : List Text
  typeAliases : List (Text × Text)

structure CallArgumentValueFact where
  callSpan : Span
  argumentIndex : Nat
  argumentSpan : Span
  valueKind : Option AssignValueKind
  inlineCallbackSpan : Option Span
  deriving DecidableEq, Repr

inductive AliasTarget where
  | nameSpace (module : Text)
  | member (module member : Text)
  | type (typeName : Text)
  deriving DecidableEq, Repr

abbrev AliasTargets := List (Text × AliasTarget)

end BonsaiNinja.LangApi
