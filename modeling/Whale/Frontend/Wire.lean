import Whale.Frontend.Ast
import Whale.Lib.Json

set_option autoImplicit false

/-! # The JSON form of frontend ASTs

The derived serialization of the frontend types: a record is an object, an enumeration is
externally tagged (a variant without data is its name as a string, a variant with data an
object with the name as its only key), a box is transparent and an absent option is `null`.

`levels` counts, constructor by constructor, the JSON brackets that are open at the deepest
point of the form of a tree. It is defined on the tree itself; `nesting_toJson` proves that
it is the nesting of the document. -/

namespace Whale

open Json

/-- A variant with one unnamed field. -/
def taggedJson (tag : String) (j : Json) : Json := .obj [(tag, j)]

/-- A variant with named fields. -/
def variantJson (tag : String) (members : List (String × Json)) : Json :=
  .obj [(tag, .obj members)]

def CallingConvention.toJson : CallingConvention → Json
  | .whale => .str "Whale"
  | .sysV64 => .str "SysV64"

def Linkage.toJson : Linkage → Json
  | .internal => .str "Internal"
  | .external => .str "External"

def FrontendSource.toJson (s : FrontendSource) : Json :=
  .obj [("file", .str s.file), ("line", .num s.line.toNat), ("column", .num s.column.toNat),
    ("end_line", .num s.endLine.toNat), ("end_column", .num s.endColumn.toNat)]

def SourceAnnotation.toJson (a : SourceAnnotation) : Json :=
  .obj [("id", .num a.id.toNat), ("source", match a.source with
    | none => .null
    | some s => s.toJson)]

/-- JSON levels of an annotation: one object, and one more when a position is present. -/
def SourceAnnotation.levels (a : SourceAnnotation) : Nat :=
  match a.source with
  | none => 1
  | some _ => 2

/-- An optional name. -/
def nameJson : Option String → Json
  | none => .null
  | some s => .str s

namespace Frontend

/-! ## Types -/

mutual

def TypeRef.toJson : TypeRef → Json
  | .void => .str "Void"
  | .bool => .str "Bool"
  | .int bits signed =>
      variantJson "Int" [("bits", .num bits.toNat), ("signed", .bool signed)]
  | .float bits => variantJson "Float" [("bits", .num bits.toNat)]
  | .ptr inner => taggedJson "Ptr" inner.toJson
  | .fnPtr sig => taggedJson "FnPtr" sig.toJson
  | .array elem len => variantJson "Array" [("elem", elem.toJson), ("len", .num len.toNat)]
  | .struct fields => variantJson "Struct" [("fields", .arr (fieldsToJson fields))]
  | .opaqueType name => taggedJson "Opaque" (.str name)

def typesToJson : List TypeRef → List Json
  | [] => []
  | t :: ts => t.toJson :: typesToJson ts

def SignatureRef.toJson : SignatureRef → Json
  | .mk params ret convention isVariadic =>
      .obj [("params", .arr (typesToJson params)), ("ret", ret.toJson),
        ("convention", convention.toJson), ("variadic", .bool isVariadic)]

def StructField.toJson : StructField → Json
  | .mk name ty => .obj [("name", .str name), ("ty", ty.toJson)]

def fieldsToJson : List StructField → List Json
  | [] => []
  | f :: fs => f.toJson :: fieldsToJson fs

end

mutual

/-- JSON levels of a type. -/
def TypeRef.levels : TypeRef → Nat
  | .void | .bool => 0
  | .int _ _ | .float _ => 2
  | .ptr inner => 1 + inner.levels
  | .fnPtr sig => 1 + sig.levels
  | .array elem _ => 2 + elem.levels
  | .struct fields => 3 + fieldsLevels fields
  | .opaqueType _ => 1

def typesLevels : List TypeRef → Nat
  | [] => 0
  | t :: ts => max t.levels (typesLevels ts)

/-- JSON levels of a signature. -/
def SignatureRef.levels : SignatureRef → Nat
  | .mk params ret _ _ => 1 + max (1 + typesLevels params) ret.levels

def StructField.levels : StructField → Nat
  | .mk _ ty => 1 + ty.levels

def fieldsLevels : List StructField → Nat
  | [] => 0
  | f :: fs => max f.levels (fieldsLevels fs)

end

/-! ## Expressions -/

def CmpOpRef.toJson : CmpOpRef → Json
  | .eq => .str "Eq"
  | .ne => .str "Ne"
  | .lt => .str "Lt"
  | .le => .str "Le"
  | .gt => .str "Gt"
  | .ge => .str "Ge"

def BinOpRef.toJson : BinOpRef → Json
  | .add => .str "Add"
  | .sub => .str "Sub"
  | .mul => .str "Mul"
  | .bitAnd => .str "BitAnd"
  | .bitOr => .str "BitOr"
  | .bitXor => .str "BitXor"
  | .div => .str "Div"
  | .rem => .str "Rem"
  | .shiftLeft => .str "ShiftLeft"
  | .shiftRight => .str "ShiftRight"
  | .logicalAnd => .str "LogicalAnd"
  | .logicalOr => .str "LogicalOr"

def Lit.toJson : Lit → Json
  | .bool value => taggedJson "Bool" (.bool value)
  | .int bits signed value => variantJson "Int"
      [("bits", .num bits.toNat), ("signed", .bool signed), ("value", .str value)]
  | .float bits value =>
      variantJson "Float" [("bits", .num bits.toNat), ("value", .str value)]

def Lit.levels : Lit → Nat
  | .bool _ => 1
  | .int _ _ _ | .float _ _ => 2

def IntegerCast.toJson : IntegerCast → Json
  | .numeric => .str "Numeric"
  | .checked => .str "Checked"

mutual

def Expr.toJson : Expr → Json
  | .located note expression => variantJson "Located"
      [("annotation", note.toJson), ("expression", expression.toJson)]
  | .struct ty fields =>
      variantJson "Struct" [("ty", ty.toJson), ("fields", .arr (initsToJson fields))]
  | .array ty elements =>
      variantJson "Array" [("ty", ty.toJson), ("elements", .arr (exprsToJson elements))]
  | .field base layout name => variantJson "Field"
      [("base", base.toJson), ("layout", layout.toJson), ("name", .str name)]
  | .index base idx => variantJson "Index" [("base", base.toJson), ("index", idx.toJson)]
  | .addressOf place => taggedJson "AddressOf" place.toJson
  | .deref pointer => taggedJson "Deref" pointer.toJson
  | .volatileLoad pointer => taggedJson "VolatileLoad" pointer.toJson
  | .pointerOffset base idx =>
      variantJson "PointerOffset" [("base", base.toJson), ("index", idx.toJson)]
  | .bitNot value => taggedJson "BitNot" value.toJson
  | .neg value => taggedJson "Neg" value.toJson
  | .cast value ty kind =>
      variantJson "Cast" [("value", value.toJson), ("ty", ty.toJson), ("kind", kind.toJson)]
  | .functionRef name => taggedJson "FunctionRef" (.str name)
  | .nullFunction sig => taggedJson "NullFunction" sig.toJson
  | .call callee args =>
      variantJson "Call" [("callee", callee.toJson), ("args", .arr (exprsToJson args))]
  | .var name => taggedJson "Var" (.str name)
  | .lit lit => taggedJson "Lit" lit.toJson
  | .binary left op right =>
      variantJson "Binary" [("left", left.toJson), ("op", op.toJson), ("right", right.toJson)]
  | .cmp left op right =>
      variantJson "Cmp" [("left", left.toJson), ("op", op.toJson), ("right", right.toJson)]

def CalleeRef.toJson : CalleeRef → Json
  | .direct name => taggedJson "Direct" (.str name)
  | .indirect callee => taggedJson "Indirect" callee.toJson

def FieldInit.toJson : FieldInit → Json
  | .mk name value => .obj [("name", .str name), ("value", value.toJson)]

def exprsToJson : List Expr → List Json
  | [] => []
  | e :: es => e.toJson :: exprsToJson es

def initsToJson : List FieldInit → List Json
  | [] => []
  | f :: fs => f.toJson :: initsToJson fs

end

mutual

/-- JSON levels of an expression. A structure literal is the dearest constructor: its
variant object, its record, the array of its fields and the record of a field stand around
every initializer. -/
def Expr.levels : Expr → Nat
  | .located note expression => 2 + max note.levels expression.levels
  | .struct ty fields => 2 + max ty.levels (1 + initsLevels fields)
  | .array ty elements => 2 + max ty.levels (1 + exprsLevels elements)
  | .field base layout _ => 2 + max base.levels layout.levels
  | .index base idx | .pointerOffset base idx => 2 + max base.levels idx.levels
  | .addressOf e | .deref e | .volatileLoad e | .bitNot e | .neg e => 1 + e.levels
  | .cast value ty _ => 2 + max value.levels ty.levels
  | .functionRef _ | .var _ => 1
  | .nullFunction sig => 1 + sig.levels
  | .call callee args => 2 + max callee.levels (1 + exprsLevels args)
  | .lit lit => 1 + lit.levels
  | .binary left _ right => 2 + max left.levels right.levels
  | .cmp left _ right => 2 + max left.levels right.levels

def CalleeRef.levels : CalleeRef → Nat
  | .direct _ => 1
  | .indirect callee => 1 + callee.levels

def FieldInit.levels : FieldInit → Nat
  | .mk _ value => 1 + value.levels

def exprsLevels : List Expr → Nat
  | [] => 0
  | e :: es => max e.levels (exprsLevels es)

def initsLevels : List FieldInit → Nat
  | [] => 0
  | f :: fs => max f.levels (initsLevels fs)

end

/-! ## Statements and programs -/

/-- An optional expression. -/
def exprJson : Option Expr → Json
  | none => .null
  | some e => e.toJson

def exprLevels : Option Expr → Nat
  | none => 0
  | some e => e.levels

mutual

def Stmt.toJson : Stmt → Json
  | .located note statement => variantJson "Located"
      [("annotation", note.toJson), ("statement", statement.toJson)]
  | .return value => taggedJson "Return" (exprJson value)
  | .volatileStore pointer value =>
      variantJson "VolatileStore" [("pointer", pointer.toJson), ("value", value.toJson)]
  | .store place value =>
      variantJson "Store" [("place", place.toJson), ("value", value.toJson)]
  | .constDecl name ty init => variantJson "ConstDecl"
      [("name", .str name), ("ty", ty.toJson), ("init", init.toJson)]
  | .varDecl name ty init => variantJson "VarDecl"
      [("name", .str name), ("ty", ty.toJson), ("init", exprJson init)]
  | .assign name value =>
      variantJson "Assign" [("name", .str name), ("value", value.toJson)]
  | .exprStmt value => taggedJson "ExprStmt" value.toJson
  | .ifElse cond thenBody elseBody => variantJson "If"
      [("cond", cond.toJson), ("then_body", .arr (stmtsToJson thenBody)),
        ("else_body", .arr (stmtsToJson elseBody))]
  | .while cond body =>
      variantJson "While" [("cond", cond.toJson), ("body", .arr (stmtsToJson body))]
  | .break => .str "Break"
  | .continue => .str "Continue"

def stmtsToJson : List Stmt → List Json
  | [] => []
  | s :: ss => s.toJson :: stmtsToJson ss

end

mutual

/-- JSON levels of a statement. -/
def Stmt.levels : Stmt → Nat
  | .located note statement => 2 + max note.levels statement.levels
  | .return value => 1 + exprLevels value
  | .volatileStore pointer value => 2 + max pointer.levels value.levels
  | .store place value => 2 + max place.levels value.levels
  | .constDecl _ ty init => 2 + max ty.levels init.levels
  | .varDecl _ ty init => 2 + max ty.levels (exprLevels init)
  | .assign _ value => 2 + value.levels
  | .exprStmt value => 1 + value.levels
  | .ifElse cond thenBody elseBody =>
      2 + max cond.levels (1 + max (stmtsLevels thenBody) (stmtsLevels elseBody))
  | .while cond body => 2 + max cond.levels (1 + stmtsLevels body)
  | .break | .continue => 0

def stmtsLevels : List Stmt → Nat
  | [] => 0
  | s :: ss => max s.levels (stmtsLevels ss)

end

def Parameter.toJson (p : Parameter) : Json :=
  .obj [("name", .str p.name), ("ty", p.ty.toJson)]

def Function.toJson (f : Function) : Json :=
  .obj [("convention", f.convention.toJson), ("linkage", f.linkage.toJson),
    ("link_name", nameJson f.linkName), ("name", .str f.name),
    ("parameters", .arr (f.parameters.map Parameter.toJson)),
    ("return_type", f.returnType.toJson), ("body", .arr (stmtsToJson f.body))]

def GlobalConst.toJson (g : GlobalConst) : Json :=
  .obj [("name", .str g.name), ("ty", g.ty.toJson), ("init", g.init.toJson)]

def FunctionDeclaration.toJson (d : FunctionDeclaration) : Json :=
  .obj [("name", .str d.name), ("signature", d.signature.toJson),
    ("linkage", d.linkage.toJson), ("link_name", nameJson d.linkName)]

def Program.toJson (p : Program) : Json :=
  .obj [("declarations", .arr (p.declarations.map FunctionDeclaration.toJson)),
    ("globals", .arr (p.globals.map GlobalConst.toJson)),
    ("functions", .arr (p.functions.map Function.toJson))]

/-- The largest value of `f` on a list, `0` on the empty list. -/
def listMax {α : Type} (f : α → Nat) : List α → Nat
  | [] => 0
  | x :: xs => max (f x) (listMax f xs)

def Parameter.levels (p : Parameter) : Nat := 1 + p.ty.levels

def Function.levels (f : Function) : Nat :=
  1 + max (1 + listMax Parameter.levels f.parameters)
    (max f.returnType.levels (1 + stmtsLevels f.body))

def GlobalConst.levels (g : GlobalConst) : Nat := 1 + max g.ty.levels g.init.levels

def FunctionDeclaration.levels (d : FunctionDeclaration) : Nat := 1 + d.signature.levels

/-- JSON levels of a program. -/
def Program.levels (p : Program) : Nat :=
  2 + max (listMax FunctionDeclaration.levels p.declarations)
    (max (listMax GlobalConst.levels p.globals) (listMax Function.levels p.functions))

/-! ## `levels` is the nesting of the document -/

@[simp] theorem nesting_taggedJson (tag : String) (j : Json) :
    (taggedJson tag j).nesting = 1 + j.nesting := by
  simp only [taggedJson, nesting_obj, nestingMembers_cons, nestingMembers_nil]
  omega

@[simp] theorem nesting_variantJson (tag : String) (ms : List (String × Json)) :
    (variantJson tag ms).nesting = 2 + nestingMembers ms := by
  simp only [variantJson, nesting_obj, nestingMembers_cons, nestingMembers_nil]
  omega

@[simp] theorem nesting_convention (c : CallingConvention) : c.toJson.nesting = 0 := by
  cases c <;> rfl

@[simp] theorem nesting_linkage (l : Linkage) : l.toJson.nesting = 0 := by
  cases l <;> rfl

@[simp] theorem nesting_nameJson (s : Option String) : (nameJson s).nesting = 0 := by
  cases s <;> rfl

@[simp] theorem nesting_cmpOp (op : CmpOpRef) : op.toJson.nesting = 0 := by
  cases op <;> rfl

@[simp] theorem nesting_binOp (op : BinOpRef) : op.toJson.nesting = 0 := by
  cases op <;> rfl

@[simp] theorem nesting_integerCast (k : IntegerCast) : k.toJson.nesting = 0 := by
  cases k <;> rfl

@[simp] theorem nesting_annotation (a : SourceAnnotation) : a.toJson.nesting = a.levels := by
  obtain ⟨id, source⟩ := a
  cases source <;> rfl

@[simp] theorem nesting_lit (l : Lit) : l.toJson.nesting = l.levels := by
  cases l <;> rfl

mutual

theorem TypeRef.nesting_toJson : (t : TypeRef) → t.toJson.nesting = t.levels
  | .void | .bool | .int _ _ | .float _ | .opaqueType _ => rfl
  | .ptr t => by simp [TypeRef.toJson, TypeRef.levels, t.nesting_toJson]
  | .fnPtr s => by simp [TypeRef.toJson, TypeRef.levels, s.nesting_toJson]
  | .array t n => by simp [TypeRef.toJson, TypeRef.levels, t.nesting_toJson]
  | .struct fs => by
      simp only [TypeRef.toJson, TypeRef.levels, nesting_variantJson, nestingMembers_cons,
        nestingMembers_nil, nesting_arr, nesting_fieldsToJson fs]
      omega

theorem nesting_typesToJson : (ts : List TypeRef) →
    nestingList (typesToJson ts) = typesLevels ts
  | [] => rfl
  | t :: ts => by
      simp [typesToJson, typesLevels, t.nesting_toJson, nesting_typesToJson ts]

theorem SignatureRef.nesting_toJson : (s : SignatureRef) → s.toJson.nesting = s.levels
  | .mk params ret c v => by
      simp only [SignatureRef.toJson, SignatureRef.levels, nesting_obj, nestingMembers_cons,
        nestingMembers_nil, nesting_arr, nesting_convention, nesting_bool,
        nesting_typesToJson params, ret.nesting_toJson]
      omega

theorem StructField.nesting_toJson : (f : StructField) → f.toJson.nesting = f.levels
  | .mk name ty => by
      simp only [StructField.toJson, StructField.levels, nesting_obj, nestingMembers_cons,
        nestingMembers_nil, nesting_str, ty.nesting_toJson]
      omega

theorem nesting_fieldsToJson : (fs : List StructField) →
    nestingList (fieldsToJson fs) = fieldsLevels fs
  | [] => rfl
  | f :: fs => by
      simp [fieldsToJson, fieldsLevels, f.nesting_toJson, nesting_fieldsToJson fs]

end

mutual

theorem Expr.nesting_toJson : (e : Expr) → e.toJson.nesting = e.levels
  | .located a e => by simp [Expr.toJson, Expr.levels, e.nesting_toJson]
  | .struct ty fs => by
      simp only [Expr.toJson, Expr.levels, nesting_variantJson, nestingMembers_cons,
        nestingMembers_nil, nesting_arr, ty.nesting_toJson, nesting_initsToJson fs]
      omega
  | .array ty es => by
      simp only [Expr.toJson, Expr.levels, nesting_variantJson, nestingMembers_cons,
        nestingMembers_nil, nesting_arr, ty.nesting_toJson, nesting_exprsToJson es]
      omega
  | .field base layout name => by
      simp [Expr.toJson, Expr.levels, base.nesting_toJson, layout.nesting_toJson]
  | .index base idx => by
      simp [Expr.toJson, Expr.levels, base.nesting_toJson, idx.nesting_toJson]
  | .addressOf e => by simp [Expr.toJson, Expr.levels, e.nesting_toJson]
  | .deref e => by simp [Expr.toJson, Expr.levels, e.nesting_toJson]
  | .volatileLoad e => by simp [Expr.toJson, Expr.levels, e.nesting_toJson]
  | .pointerOffset base idx => by
      simp [Expr.toJson, Expr.levels, base.nesting_toJson, idx.nesting_toJson]
  | .bitNot e => by simp [Expr.toJson, Expr.levels, e.nesting_toJson]
  | .neg e => by simp [Expr.toJson, Expr.levels, e.nesting_toJson]
  | .cast e ty k => by
      simp [Expr.toJson, Expr.levels, e.nesting_toJson, ty.nesting_toJson]
  | .functionRef s => rfl
  | .nullFunction s => by simp [Expr.toJson, Expr.levels, s.nesting_toJson]
  | .call callee args => by
      simp only [Expr.toJson, Expr.levels, nesting_variantJson, nestingMembers_cons,
        nestingMembers_nil, nesting_arr, callee.nesting_toJson, nesting_exprsToJson args]
      omega
  | .var s => rfl
  | .lit l => by simp [Expr.toJson, Expr.levels]
  | .binary l op r => by
      simp [Expr.toJson, Expr.levels, l.nesting_toJson, r.nesting_toJson]
  | .cmp l op r => by
      simp [Expr.toJson, Expr.levels, l.nesting_toJson, r.nesting_toJson]

theorem CalleeRef.nesting_toJson : (c : CalleeRef) → c.toJson.nesting = c.levels
  | .direct s => rfl
  | .indirect e => by simp [CalleeRef.toJson, CalleeRef.levels, e.nesting_toJson]

theorem FieldInit.nesting_toJson : (f : FieldInit) → f.toJson.nesting = f.levels
  | .mk name value => by
      simp only [FieldInit.toJson, FieldInit.levels, nesting_obj, nestingMembers_cons,
        nestingMembers_nil, nesting_str, value.nesting_toJson]
      omega

theorem nesting_exprsToJson : (es : List Expr) →
    nestingList (exprsToJson es) = exprsLevels es
  | [] => rfl
  | e :: es => by
      simp [exprsToJson, exprsLevels, e.nesting_toJson, nesting_exprsToJson es]

theorem nesting_initsToJson : (fs : List FieldInit) →
    nestingList (initsToJson fs) = initsLevels fs
  | [] => rfl
  | f :: fs => by
      simp [initsToJson, initsLevels, f.nesting_toJson, nesting_initsToJson fs]

end

@[simp] theorem nesting_exprJson (e : Option Expr) : (exprJson e).nesting = exprLevels e := by
  cases e with
  | none => rfl
  | some e => exact e.nesting_toJson

mutual

theorem Stmt.nesting_toJson : (s : Stmt) → s.toJson.nesting = s.levels
  | .located a s => by simp [Stmt.toJson, Stmt.levels, s.nesting_toJson]
  | .return e => by simp [Stmt.toJson, Stmt.levels]
  | .volatileStore p v => by
      simp [Stmt.toJson, Stmt.levels, p.nesting_toJson, v.nesting_toJson]
  | .store p v => by simp [Stmt.toJson, Stmt.levels, p.nesting_toJson, v.nesting_toJson]
  | .constDecl name ty init => by
      simp [Stmt.toJson, Stmt.levels, ty.nesting_toJson, init.nesting_toJson]
  | .varDecl name ty init => by simp [Stmt.toJson, Stmt.levels, ty.nesting_toJson]
  | .assign name v => by simp [Stmt.toJson, Stmt.levels, v.nesting_toJson]
  | .exprStmt v => by simp [Stmt.toJson, Stmt.levels, v.nesting_toJson]
  | .ifElse cond t e => by
      simp only [Stmt.toJson, Stmt.levels, nesting_variantJson, nestingMembers_cons,
        nestingMembers_nil, nesting_arr, cond.nesting_toJson, nesting_stmtsToJson t,
        nesting_stmtsToJson e]
      omega
  | .while cond body => by
      simp only [Stmt.toJson, Stmt.levels, nesting_variantJson, nestingMembers_cons,
        nestingMembers_nil, nesting_arr, cond.nesting_toJson, nesting_stmtsToJson body]
      omega
  | .break | .continue => rfl

theorem nesting_stmtsToJson : (ss : List Stmt) →
    nestingList (stmtsToJson ss) = stmtsLevels ss
  | [] => rfl
  | s :: ss => by
      simp [stmtsToJson, stmtsLevels, s.nesting_toJson, nesting_stmtsToJson ss]

end

theorem nestingList_map {α : Type} {f : α → Json} {g : α → Nat}
    (h : ∀ x, (f x).nesting = g x) (xs : List α) :
    nestingList (xs.map f) = listMax g xs := by
  induction xs with
  | nil => rfl
  | cons x xs ih => simp [listMax, h x, ih]

theorem Parameter.nesting_toJson (p : Parameter) : p.toJson.nesting = p.levels := by
  simp only [Parameter.toJson, Parameter.levels, nesting_obj, nestingMembers_cons,
    nestingMembers_nil, nesting_str, p.ty.nesting_toJson]
  omega

theorem Function.nesting_toJson (f : Function) : f.toJson.nesting = f.levels := by
  simp only [Function.toJson, Function.levels, nesting_obj, nestingMembers_cons,
    nestingMembers_nil, nesting_str, nesting_convention, nesting_linkage, nesting_nameJson,
    nesting_arr, nestingList_map Parameter.nesting_toJson, f.returnType.nesting_toJson,
    nesting_stmtsToJson]
  omega

theorem GlobalConst.nesting_toJson (g : GlobalConst) : g.toJson.nesting = g.levels := by
  simp only [GlobalConst.toJson, GlobalConst.levels, nesting_obj, nestingMembers_cons,
    nestingMembers_nil, nesting_str, g.ty.nesting_toJson, g.init.nesting_toJson]
  omega

theorem FunctionDeclaration.nesting_toJson (d : FunctionDeclaration) :
    d.toJson.nesting = d.levels := by
  simp only [FunctionDeclaration.toJson, FunctionDeclaration.levels, nesting_obj,
    nestingMembers_cons, nestingMembers_nil, nesting_str, nesting_linkage, nesting_nameJson,
    d.signature.nesting_toJson]
  omega

/-- **The structural count is the nesting of the document.** -/
theorem Program.nesting_toJson (p : Program) : p.toJson.nesting = p.levels := by
  simp only [Program.toJson, Program.levels, nesting_obj, nestingMembers_cons,
    nestingMembers_nil, nesting_arr, nestingList_map FunctionDeclaration.nesting_toJson,
    nestingList_map GlobalConst.nesting_toJson, nestingList_map Function.nesting_toJson]
  omega

/-! ## No repeated keys -/

@[simp] theorem firstDuplicate_taggedJson (tag : String) (j : Json) :
    (taggedJson tag j).firstDuplicate = j.firstDuplicate := by
  simp [taggedJson]

@[simp] theorem firstDuplicate_variantJson (tag : String) (ms : List (String × Json)) :
    (variantJson tag ms).firstDuplicate = firstDuplicateMembers [] ms := by
  simp [variantJson]

@[simp] theorem firstDuplicate_convention (c : CallingConvention) :
    c.toJson.firstDuplicate = none := by
  cases c <;> rfl

@[simp] theorem firstDuplicate_linkage (l : Linkage) : l.toJson.firstDuplicate = none := by
  cases l <;> rfl

@[simp] theorem firstDuplicate_nameJson (s : Option String) :
    (nameJson s).firstDuplicate = none := by
  cases s <;> rfl

@[simp] theorem firstDuplicate_cmpOp (op : CmpOpRef) : op.toJson.firstDuplicate = none := by
  cases op <;> rfl

@[simp] theorem firstDuplicate_binOp (op : BinOpRef) : op.toJson.firstDuplicate = none := by
  cases op <;> rfl

@[simp] theorem firstDuplicate_integerCast (k : IntegerCast) :
    k.toJson.firstDuplicate = none := by
  cases k <;> rfl

@[simp] theorem firstDuplicate_annotation (a : SourceAnnotation) :
    a.toJson.firstDuplicate = none := by
  obtain ⟨id, source⟩ := a
  cases source <;> simp [ SourceAnnotation.toJson, FrontendSource.toJson]

@[simp] theorem firstDuplicate_lit (l : Lit) : l.toJson.firstDuplicate = none := by
  cases l <;> simp [Lit.toJson]

mutual

theorem TypeRef.firstDuplicate_toJson : (t : TypeRef) → t.toJson.firstDuplicate = none
  | .void | .bool | .int _ _ | .float _ | .opaqueType _ => by simp [TypeRef.toJson]
  | .ptr t => by simp [TypeRef.toJson, t.firstDuplicate_toJson]
  | .fnPtr s => by simp [TypeRef.toJson, s.firstDuplicate_toJson]
  | .array t n => by simp [TypeRef.toJson, t.firstDuplicate_toJson]
  | .struct fs => by simp [TypeRef.toJson, firstDuplicate_fieldsToJson fs]

theorem firstDuplicate_typesToJson : (ts : List TypeRef) →
    firstDuplicateList (typesToJson ts) = none
  | [] => rfl
  | t :: ts => by
      simp [typesToJson, t.firstDuplicate_toJson, firstDuplicate_typesToJson ts]

theorem SignatureRef.firstDuplicate_toJson :
    (s : SignatureRef) → s.toJson.firstDuplicate = none
  | .mk params ret c v => by
      simp [SignatureRef.toJson, firstDuplicate_typesToJson params, ret.firstDuplicate_toJson]

theorem StructField.firstDuplicate_toJson :
    (f : StructField) → f.toJson.firstDuplicate = none
  | .mk name ty => by simp [StructField.toJson, ty.firstDuplicate_toJson]

theorem firstDuplicate_fieldsToJson : (fs : List StructField) →
    firstDuplicateList (fieldsToJson fs) = none
  | [] => rfl
  | f :: fs => by
      simp [fieldsToJson, f.firstDuplicate_toJson, firstDuplicate_fieldsToJson fs]

end

mutual

theorem Expr.firstDuplicate_toJson : (e : Expr) → e.toJson.firstDuplicate = none
  | .located a e => by simp [Expr.toJson, e.firstDuplicate_toJson]
  | .struct ty fs => by
      simp [Expr.toJson, ty.firstDuplicate_toJson, firstDuplicate_initsToJson fs]
  | .array ty es => by
      simp [Expr.toJson, ty.firstDuplicate_toJson, firstDuplicate_exprsToJson es]
  | .field base layout name => by
      simp [Expr.toJson, base.firstDuplicate_toJson, layout.firstDuplicate_toJson]
  | .index base idx => by
      simp [Expr.toJson, base.firstDuplicate_toJson, idx.firstDuplicate_toJson]
  | .addressOf e => by simp [Expr.toJson, e.firstDuplicate_toJson]
  | .deref e => by simp [Expr.toJson, e.firstDuplicate_toJson]
  | .volatileLoad e => by simp [Expr.toJson, e.firstDuplicate_toJson]
  | .pointerOffset base idx => by
      simp [Expr.toJson, base.firstDuplicate_toJson, idx.firstDuplicate_toJson]
  | .bitNot e => by simp [Expr.toJson, e.firstDuplicate_toJson]
  | .neg e => by simp [Expr.toJson, e.firstDuplicate_toJson]
  | .cast e ty k => by
      simp [Expr.toJson, e.firstDuplicate_toJson, ty.firstDuplicate_toJson]
  | .functionRef s => by simp [Expr.toJson]
  | .nullFunction s => by simp [Expr.toJson, s.firstDuplicate_toJson]
  | .call callee args => by
      simp [Expr.toJson, callee.firstDuplicate_toJson, firstDuplicate_exprsToJson args]
  | .var s => by simp [Expr.toJson]
  | .lit l => by simp [Expr.toJson]
  | .binary l op r => by
      simp [Expr.toJson, l.firstDuplicate_toJson, r.firstDuplicate_toJson]
  | .cmp l op r => by
      simp [Expr.toJson, l.firstDuplicate_toJson, r.firstDuplicate_toJson]

theorem CalleeRef.firstDuplicate_toJson : (c : CalleeRef) → c.toJson.firstDuplicate = none
  | .direct s => by simp [CalleeRef.toJson]
  | .indirect e => by simp [CalleeRef.toJson, e.firstDuplicate_toJson]

theorem FieldInit.firstDuplicate_toJson : (f : FieldInit) → f.toJson.firstDuplicate = none
  | .mk name value => by simp [FieldInit.toJson, value.firstDuplicate_toJson]

theorem firstDuplicate_exprsToJson : (es : List Expr) →
    firstDuplicateList (exprsToJson es) = none
  | [] => rfl
  | e :: es => by
      simp [exprsToJson, e.firstDuplicate_toJson, firstDuplicate_exprsToJson es]

theorem firstDuplicate_initsToJson : (fs : List FieldInit) →
    firstDuplicateList (initsToJson fs) = none
  | [] => rfl
  | f :: fs => by
      simp [initsToJson, f.firstDuplicate_toJson, firstDuplicate_initsToJson fs]

end

@[simp] theorem firstDuplicate_exprJson (e : Option Expr) :
    (exprJson e).firstDuplicate = none := by
  cases e with
  | none => rfl
  | some e => exact e.firstDuplicate_toJson

mutual

theorem Stmt.firstDuplicate_toJson : (s : Stmt) → s.toJson.firstDuplicate = none
  | .located a s => by simp [Stmt.toJson, s.firstDuplicate_toJson]
  | .return e => by simp [Stmt.toJson]
  | .volatileStore p v => by
      simp [Stmt.toJson, p.firstDuplicate_toJson, v.firstDuplicate_toJson]
  | .store p v => by simp [Stmt.toJson, p.firstDuplicate_toJson, v.firstDuplicate_toJson]
  | .constDecl name ty init => by
      simp [Stmt.toJson, ty.firstDuplicate_toJson, init.firstDuplicate_toJson]
  | .varDecl name ty init => by simp [Stmt.toJson, ty.firstDuplicate_toJson]
  | .assign name v => by simp [Stmt.toJson, v.firstDuplicate_toJson]
  | .exprStmt v => by simp [Stmt.toJson, v.firstDuplicate_toJson]
  | .ifElse cond t e => by
      simp [Stmt.toJson, cond.firstDuplicate_toJson, firstDuplicate_stmtsToJson t,
        firstDuplicate_stmtsToJson e]
  | .while cond body => by
      simp [Stmt.toJson, cond.firstDuplicate_toJson, firstDuplicate_stmtsToJson body]
  | .break | .continue => rfl

theorem firstDuplicate_stmtsToJson : (ss : List Stmt) →
    firstDuplicateList (stmtsToJson ss) = none
  | [] => rfl
  | s :: ss => by
      simp [stmtsToJson, s.firstDuplicate_toJson, firstDuplicate_stmtsToJson ss]

end

theorem firstDuplicateList_map {α : Type} {f : α → Json}
    (h : ∀ x, (f x).firstDuplicate = none) (xs : List α) :
    firstDuplicateList (xs.map f) = none := by
  induction xs with
  | nil => rfl
  | cons x xs ih => simp [h x, ih]

theorem Function.firstDuplicate_toJson (f : Function) : f.toJson.firstDuplicate = none := by
  have hp : ∀ p : Parameter, p.toJson.firstDuplicate = none := fun p => by
    simp [Parameter.toJson, p.ty.firstDuplicate_toJson]
  simp [Function.toJson, firstDuplicateList_map hp, f.returnType.firstDuplicate_toJson,
    firstDuplicate_stmtsToJson]

theorem GlobalConst.firstDuplicate_toJson (g : GlobalConst) :
    g.toJson.firstDuplicate = none := by
  simp [GlobalConst.toJson, g.ty.firstDuplicate_toJson, g.init.firstDuplicate_toJson]

theorem FunctionDeclaration.firstDuplicate_toJson (d : FunctionDeclaration) :
    d.toJson.firstDuplicate = none := by
  simp [FunctionDeclaration.toJson, d.signature.firstDuplicate_toJson]

theorem Program.firstDuplicate_toJson (p : Program) : p.toJson.firstDuplicate = none := by
  simp [Program.toJson, firstDuplicateList_map FunctionDeclaration.firstDuplicate_toJson,
    firstDuplicateList_map GlobalConst.firstDuplicate_toJson,
    firstDuplicateList_map Function.firstDuplicate_toJson]

end Frontend

end Whale
