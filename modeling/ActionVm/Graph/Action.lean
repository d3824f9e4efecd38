namespace ActionVm

inductive Action where
  | getLocal
  | setLocal
  | copyLocal
  | kill
  | pop
  | dup
  | swap
  | pushNull
  | pushUndefined
  | pushTrue
  | pushFalse
  | pushNaN
  | pushByte
  | pushShort
  | pushString
  | pushInt
  | pushUint
  | pushDouble
  | pushScope
  | popScope
  | getGlobalScope
  | getScopeObject
  | add
  | subtract
  | multiply
  | divide
  | incLocalI
  | lessThan
  | greaterThan
  | unaryStub
  | binaryStub
  | throw
  | newCatch
  | nextValue
  | constructSuper
  | setSuper
  | trap
  | getProperty
  | setProperty
  | initProperty
  | deleteProperty
  | getSlot
  | setSlot
  | findProperty
  | findPropStrict
  | getLex
  | callProperty
  | callPropVoid
  | callSuper
  | callSuperVoid
  | call
  | construct
  | constructProp
  | newFunction
  | newObject
  | newArray
  | newActivation
  | newClass
  | hasNext2
  | nextName
  | returnValue
  | returnLocal
  deriving DecidableEq, Repr

namespace Action

def name : Action → String
  | getLocal => "GetLocal"
  | setLocal => "SetLocal"
  | copyLocal => "CopyLocal"
  | kill => "Kill"
  | pop => "Pop"
  | dup => "Dup"
  | swap => "Swap"
  | pushNull => "PushNull"
  | pushUndefined => "PushUndefined"
  | pushTrue => "PushTrue"
  | pushFalse => "PushFalse"
  | pushNaN => "PushNaN"
  | pushByte => "PushByte"
  | pushShort => "PushShort"
  | pushString => "PushString"
  | pushInt => "PushInt"
  | pushUint => "PushUint"
  | pushDouble => "PushDouble"
  | pushScope => "PushScope"
  | popScope => "PopScope"
  | getGlobalScope => "GetGlobalScope"
  | getScopeObject => "GetScopeObject"
  | add => "Add"
  | subtract => "Subtract"
  | multiply => "Multiply"
  | divide => "Divide"
  | incLocalI => "IncLocalI"
  | lessThan => "LessThan"
  | greaterThan => "GreaterThan"
  | unaryStub => "UnaryStub"
  | binaryStub => "BinaryStub"
  | throw => "Throw"
  | newCatch => "NewCatch"
  | nextValue => "NextValue"
  | constructSuper => "ConstructSuper"
  | setSuper => "SetSuper"
  | trap => "Trap"
  | getProperty => "GetProperty"
  | setProperty => "SetProperty"
  | initProperty => "InitProperty"
  | deleteProperty => "DeleteProperty"
  | getSlot => "GetSlot"
  | setSlot => "SetSlot"
  | findProperty => "FindProperty"
  | findPropStrict => "FindPropStrict"
  | getLex => "GetLex"
  | callProperty => "CallProperty"
  | callPropVoid => "CallPropVoid"
  | callSuper => "CallSuper"
  | callSuperVoid => "CallSuperVoid"
  | call => "Call"
  | construct => "Construct"
  | constructProp => "ConstructProp"
  | newFunction => "NewFunction"
  | newObject => "NewObject"
  | newArray => "NewArray"
  | newActivation => "NewActivation"
  | newClass => "NewClass"
  | hasNext2 => "HasNext2"
  | nextName => "NextName"
  | returnValue => "ReturnValue"
  | returnLocal => "ReturnLocal"

def all : List Action :=
  [getLocal, setLocal, copyLocal, kill, pop, dup, swap, pushNull, pushUndefined, pushTrue,
   pushFalse, pushNaN, pushByte, pushShort, pushString, pushInt, pushUint, pushDouble, pushScope,
   popScope, getGlobalScope, getScopeObject, add, subtract, multiply, divide, incLocalI,
   lessThan, greaterThan, unaryStub, binaryStub, throw, newCatch, nextValue, constructSuper,
   setSuper, trap, getProperty, setProperty, initProperty, deleteProperty, getSlot, setSlot,
   findProperty, findPropStrict, getLex, callProperty, callPropVoid, callSuper, callSuperVoid,
   call, construct, constructProp, newFunction, newObject, newArray, newActivation, newClass,
   hasNext2, nextName, returnValue, returnLocal]

def ofName? (name : String) : Option Action :=
  all.find? (·.name = name)

end Action

inductive Condition where
  | isTrue
  | isFalse
  | eq
  | ne
  | strictEq
  | strictNe
  | lt
  | le
  | gt
  | ge
  | nlt
  | nle
  | ngt
  | nge
  deriving DecidableEq, Repr

namespace Condition

def name : Condition → String
  | isTrue => "True"
  | isFalse => "False"
  | eq => "Eq"
  | ne => "Ne"
  | strictEq => "StrictEq"
  | strictNe => "StrictNe"
  | lt => "Lt"
  | le => "Le"
  | gt => "Gt"
  | ge => "Ge"
  | nlt => "Nlt"
  | nle => "Nle"
  | ngt => "Ngt"
  | nge => "Nge"

def all : List Condition :=
  [isTrue, isFalse, eq, ne, strictEq, strictNe, lt, le, gt, ge, nlt, nle, ngt, nge]

def ofName? (name : String) : Option Condition :=
  all.find? (·.name = name)

end Condition

end ActionVm
