namespace ActionVm

inductive Operands where
  | none
  | u8
  | u30
  | u30u30
  | s24
  | lookupSwitch
  | debug
  deriving DecidableEq, Repr

inductive Opcode where
  | nop
  | throw
  | getSuper
  | setSuper
  | kill
  | label
  | ifNlt
  | ifNle
  | ifNgt
  | ifNge
  | jump
  | ifTrue
  | ifFalse
  | ifEq
  | ifNe
  | ifLt
  | ifLe
  | ifGt
  | ifGe
  | ifStrictEq
  | ifStrictNe
  | lookupSwitch
  | popScope
  | nextName
  | hasNext
  | pushNull
  | pushUndefined
  | nextValue
  | pushByte
  | pushShort
  | pushTrue
  | pushFalse
  | pushNaN
  | pop
  | dup
  | swap
  | pushString
  | pushInt
  | pushUint
  | pushDouble
  | pushScope
  | pushNamespace
  | hasNext2
  | newFunction
  | call
  | construct
  | callMethod
  | callStatic
  | callSuper
  | callProperty
  | returnVoid
  | returnValue
  | constructSuper
  | constructProp
  | callPropLex
  | callSuperVoid
  | callPropVoid
  | newObject
  | newArray
  | newActivation
  | newClass
  | getDescendants
  | newCatch
  | findPropStrict
  | findProperty
  | getLex
  | setProperty
  | getLocal
  | setLocal
  | getGlobalScope
  | getScopeObject
  | getProperty
  | initProperty
  | deleteProperty
  | getSlot
  | setSlot
  | getGlobalSlot
  | setGlobalSlot
  | convertS
  | convertI
  | convertU
  | convertD
  | convertB
  | convertO
  | coerce
  | coerceA
  | coerceS
  | asType
  | asTypeLate
  | negate
  | increment
  | incLocal
  | decrement
  | decLocal
  | typeOf
  | not
  | add
  | subtract
  | multiply
  | divide
  | modulo
  | equals
  | strictEquals
  | lessThan
  | lessEquals
  | greaterThan
  | greaterEquals
  | instanceOf
  | isType
  | isTypeLate
  | within
  | incrementI
  | decrementI
  | incLocalI
  | decLocalI
  | getLocal0
  | getLocal1
  | getLocal2
  | getLocal3
  | setLocal0
  | setLocal1
  | setLocal2
  | setLocal3
  | debug
  | debugLine
  | debugFile
  deriving DecidableEq, Repr

namespace Opcode

def byte : Opcode → UInt8
  | nop => 0x02
  | throw => 0x03
  | getSuper => 0x04
  | setSuper => 0x05
  | kill => 0x08
  | label => 0x09
  | ifNlt => 0x0c
  | ifNle => 0x0d
  | ifNgt => 0x0e
  | ifNge => 0x0f
  | jump => 0x10
  | ifTrue => 0x11
  | ifFalse => 0x12
  | ifEq => 0x13
  | ifNe => 0x14
  | ifLt => 0x15
  | ifLe => 0x16
  | ifGt => 0x17
  | ifGe => 0x18
  | ifStrictEq => 0x19
  | ifStrictNe => 0x1a
  | lookupSwitch => 0x1b
  | popScope => 0x1d
  | nextName => 0x1e
  | hasNext => 0x1f
  | pushNull => 0x20
  | pushUndefined => 0x21
  | nextValue => 0x23
  | pushByte => 0x24
  | pushShort => 0x25
  | pushTrue => 0x26
  | pushFalse => 0x27
  | pushNaN => 0x28
  | pop => 0x29
  | dup => 0x2a
  | swap => 0x2b
  | pushString => 0x2c
  | pushInt => 0x2d
  | pushUint => 0x2e
  | pushDouble => 0x2f
  | pushScope => 0x30
  | pushNamespace => 0x31
  | hasNext2 => 0x32
  | newFunction => 0x40
  | call => 0x41
  | construct => 0x42
  | callMethod => 0x43
  | callStatic => 0x44
  | callSuper => 0x45
  | callProperty => 0x46
  | returnVoid => 0x47
  | returnValue => 0x48
  | constructSuper => 0x49
  | constructProp => 0x4a
  | callPropLex => 0x4c
  | callSuperVoid => 0x4e
  | callPropVoid => 0x4f
  | newObject => 0x55
  | newArray => 0x56
  | newActivation => 0x57
  | newClass => 0x58
  | getDescendants => 0x59
  | newCatch => 0x5a
  | findPropStrict => 0x5d
  | findProperty => 0x5e
  | getLex => 0x60
  | setProperty => 0x61
  | getLocal => 0x62
  | setLocal => 0x63
  | getGlobalScope => 0x64
  | getScopeObject => 0x65
  | getProperty => 0x66
  | initProperty => 0x68
  | deleteProperty => 0x6a
  | getSlot => 0x6c
  | setSlot => 0x6d
  | getGlobalSlot => 0x6e
  | setGlobalSlot => 0x6f
  | convertS => 0x70
  | convertI => 0x73
  | convertU => 0x74
  | convertD => 0x75
  | convertB => 0x76
  | convertO => 0x77
  | coerce => 0x80
  | coerceA => 0x82
  | coerceS => 0x85
  | asType => 0x86
  | asTypeLate => 0x87
  | negate => 0x90
  | increment => 0x91
  | incLocal => 0x92
  | decrement => 0x93
  | decLocal => 0x94
  | typeOf => 0x95
  | not => 0x96
  | add => 0xa0
  | subtract => 0xa1
  | multiply => 0xa2
  | divide => 0xa3
  | modulo => 0xa4
  | equals => 0xab
  | strictEquals => 0xac
  | lessThan => 0xad
  | lessEquals => 0xae
  | greaterThan => 0xaf
  | greaterEquals => 0xb0
  | instanceOf => 0xb1
  | isType => 0xb2
  | isTypeLate => 0xb3
  | within => 0xb4
  | incrementI => 0xc0
  | decrementI => 0xc1
  | incLocalI => 0xc2
  | decLocalI => 0xc3
  | getLocal0 => 0xd0
  | getLocal1 => 0xd1
  | getLocal2 => 0xd2
  | getLocal3 => 0xd3
  | setLocal0 => 0xd4
  | setLocal1 => 0xd5
  | setLocal2 => 0xd6
  | setLocal3 => 0xd7
  | debug => 0xef
  | debugLine => 0xf0
  | debugFile => 0xf1

def name : Opcode → String
  | nop => "nop"
  | throw => "throw"
  | getSuper => "getsuper"
  | setSuper => "setsuper"
  | kill => "kill"
  | label => "label"
  | ifNlt => "ifnlt"
  | ifNle => "ifnle"
  | ifNgt => "ifngt"
  | ifNge => "ifnge"
  | jump => "jump"
  | ifTrue => "iftrue"
  | ifFalse => "iffalse"
  | ifEq => "ifeq"
  | ifNe => "ifne"
  | ifLt => "iflt"
  | ifLe => "ifle"
  | ifGt => "ifgt"
  | ifGe => "ifge"
  | ifStrictEq => "ifstricteq"
  | ifStrictNe => "ifstrictne"
  | lookupSwitch => "lookupswitch"
  | popScope => "popscope"
  | nextName => "nextname"
  | hasNext => "hasnext"
  | pushNull => "pushnull"
  | pushUndefined => "pushundefined"
  | nextValue => "nextvalue"
  | pushByte => "pushbyte"
  | pushShort => "pushshort"
  | pushTrue => "pushtrue"
  | pushFalse => "pushfalse"
  | pushNaN => "pushnan"
  | pop => "pop"
  | dup => "dup"
  | swap => "swap"
  | pushString => "pushstring"
  | pushInt => "pushint"
  | pushUint => "pushuint"
  | pushDouble => "pushdouble"
  | pushScope => "pushscope"
  | pushNamespace => "pushnamespace"
  | hasNext2 => "hasnext2"
  | newFunction => "newfunction"
  | call => "call"
  | construct => "construct"
  | callMethod => "callmethod"
  | callStatic => "callstatic"
  | callSuper => "callsuper"
  | callProperty => "callproperty"
  | returnVoid => "returnvoid"
  | returnValue => "returnvalue"
  | constructSuper => "constructsuper"
  | constructProp => "constructprop"
  | callPropLex => "callproplex"
  | callSuperVoid => "callsupervoid"
  | callPropVoid => "callpropvoid"
  | newObject => "newobject"
  | newArray => "newarray"
  | newActivation => "newactivation"
  | newClass => "newclass"
  | getDescendants => "getdescendants"
  | newCatch => "newcatch"
  | findPropStrict => "findpropstrict"
  | findProperty => "findproperty"
  | getLex => "getlex"
  | setProperty => "setproperty"
  | getLocal => "getlocal"
  | setLocal => "setlocal"
  | getGlobalScope => "getglobalscope"
  | getScopeObject => "getscopeobject"
  | getProperty => "getproperty"
  | initProperty => "initproperty"
  | deleteProperty => "deleteproperty"
  | getSlot => "getslot"
  | setSlot => "setslot"
  | getGlobalSlot => "getglobalslot"
  | setGlobalSlot => "setglobalslot"
  | convertS => "convert_s"
  | convertI => "convert_i"
  | convertU => "convert_u"
  | convertD => "convert_d"
  | convertB => "convert_b"
  | convertO => "convert_o"
  | coerce => "coerce"
  | coerceA => "coerce_a"
  | coerceS => "coerce_s"
  | asType => "astype"
  | asTypeLate => "astypelate"
  | negate => "negate"
  | increment => "increment"
  | incLocal => "inclocal"
  | decrement => "decrement"
  | decLocal => "declocal"
  | typeOf => "typeof"
  | not => "not"
  | add => "add"
  | subtract => "subtract"
  | multiply => "multiply"
  | divide => "divide"
  | modulo => "modulo"
  | equals => "equals"
  | strictEquals => "strictequals"
  | lessThan => "lessthan"
  | lessEquals => "lessequals"
  | greaterThan => "greaterthan"
  | greaterEquals => "greaterequals"
  | instanceOf => "instanceof"
  | isType => "istype"
  | isTypeLate => "istypelate"
  | within => "in"
  | incrementI => "increment_i"
  | decrementI => "decrement_i"
  | incLocalI => "inclocal_i"
  | decLocalI => "declocal_i"
  | getLocal0 => "getlocal_0"
  | getLocal1 => "getlocal_1"
  | getLocal2 => "getlocal_2"
  | getLocal3 => "getlocal_3"
  | setLocal0 => "setlocal_0"
  | setLocal1 => "setlocal_1"
  | setLocal2 => "setlocal_2"
  | setLocal3 => "setlocal_3"
  | debug => "debug"
  | debugLine => "debugline"
  | debugFile => "debugfile"

def operands : Opcode → Operands
  | pushByte => .u8
  | getSuper | setSuper | kill | pushShort | pushString | pushInt | pushUint | pushDouble
  | pushNamespace | newFunction | call | construct | constructSuper | newObject | newArray
  | newClass | getDescendants | newCatch | findPropStrict | findProperty | getLex
  | setProperty | getLocal | setLocal | getScopeObject | getProperty | initProperty
  | deleteProperty | getSlot | setSlot | getGlobalSlot | setGlobalSlot | coerce | asType
  | incLocal | decLocal | isType | incLocalI | decLocalI | debugLine | debugFile => .u30
  | hasNext2 | callMethod | callStatic | callSuper | callProperty | constructProp
  | callPropLex | callSuperVoid | callPropVoid => .u30u30
  | ifNlt | ifNle | ifNgt | ifNge | jump | ifTrue | ifFalse | ifEq | ifNe | ifLt | ifLe
  | ifGt | ifGe | ifStrictEq | ifStrictNe => .s24
  | lookupSwitch => .lookupSwitch
  | debug => .debug
  | _ => .none

def all : List Opcode :=
  [nop, throw, getSuper, setSuper, kill, label, ifNlt, ifNle, ifNgt, ifNge, jump, ifTrue,
   ifFalse, ifEq, ifNe, ifLt, ifLe, ifGt, ifGe, ifStrictEq, ifStrictNe, lookupSwitch, popScope,
   nextName, hasNext, pushNull, pushUndefined, nextValue, pushByte, pushShort, pushTrue,
   pushFalse, pushNaN, pop, dup, swap, pushString, pushInt, pushUint, pushDouble, pushScope,
   pushNamespace, hasNext2, newFunction, call, construct, callMethod, callStatic, callSuper,
   callProperty, returnVoid, returnValue, constructSuper, constructProp, callPropLex,
   callSuperVoid, callPropVoid, newObject, newArray, newActivation, newClass, getDescendants,
   newCatch, findPropStrict, findProperty, getLex, setProperty, getLocal, setLocal,
   getGlobalScope, getScopeObject, getProperty, initProperty, deleteProperty, getSlot, setSlot,
   getGlobalSlot, setGlobalSlot, convertS, convertI, convertU, convertD, convertB, convertO,
   coerce, coerceA, coerceS, asType, asTypeLate, negate, increment, incLocal, decrement,
   decLocal, typeOf, not, add, subtract, multiply, divide, modulo, equals, strictEquals,
   lessThan, lessEquals, greaterThan, greaterEquals, instanceOf, isType, isTypeLate, within,
   incrementI, decrementI, incLocalI, decLocalI, getLocal0, getLocal1, getLocal2, getLocal3,
   setLocal0, setLocal1, setLocal2, setLocal3, debug, debugLine, debugFile]

def ofByte? (b : UInt8) : Option Opcode :=
  all.find? (·.byte = b)

def ofName? (name : String) : Option Opcode :=
  all.find? (·.name = name)

end Opcode

end ActionVm
