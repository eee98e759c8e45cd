import LuaEngine.Lua.Table

/-!
# `module`

The table that `module` makes the environment of its caller.  A global name is
looked up there, and without `package.seeall` nowhere else.
-/

namespace LuaEngine.Lua

open LuaEngine.Codec

namespace Table

/-- `table[name] = value` -/
def setField (table : Table) (name : String) (value : LuaValue) : Table :=
  table.rawset (.literal name) value rfl

def getField (table : Table) (name : String) : LuaValue := table.rawget (.literal name)

theorem getField_setField_of_ne (table : Table) {name other : String} (value : LuaValue)
    (different : LuaValue.literal other ≠ LuaValue.literal name) :
    (table.setField name value).getField other = table.getField other :=
  table.rawget_rawset_of_ne value rfl different

end Table

/-- The name of a module up to its last dot. -/
def packageName (modname : String) : Bytes :=
  (modname.toUTF8.toList.reverse.dropWhile fun c => c ≠ 46).reverse

def modinit (fields : Table) (module : Nat) (modname : String) : Table :=
  ((fields.setField "_M" (.table module)).setField "_NAME" (.literal modname)).setField
    "_PACKAGE" (.string (packageName modname))

/-- The environment of the chunk that calls `module(modname)`, where the table of the
module is the one with this handle and these fields. -/
def ll_module (fields : Table) (module : Nat) (modname : String) : Table :=
  if fields.getField "_NAME" = .nil then modinit fields module modname else fields

/-- What the first call leaves to be looked up by another name is what was there. -/
theorem getField_ll_module (fields : Table) (module : Nat) (modname : String) {name : String}
    (isOther : LuaValue.literal name ≠ .literal "_M" ∧ LuaValue.literal name ≠ .literal "_NAME" ∧
      LuaValue.literal name ≠ .literal "_PACKAGE") :
    (ll_module fields module modname).getField name = fields.getField name := by
  obtain ⟨notM, notName, notPackage⟩ := isOther
  unfold ll_module
  split
  next =>
    rw [modinit, Table.getField_setField_of_ne _ _ notPackage,
      Table.getField_setField_of_ne _ _ notName, Table.getField_setField_of_ne _ _ notM]
  next => rfl

end LuaEngine.Lua
