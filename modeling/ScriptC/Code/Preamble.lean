/-! # Start of a generated unit

The layout of tagged values, which generated code reads and writes directly, and the runtime
functions it calls for everything else.
-/

namespace ScriptC

def preambleLines : List String := [
  "/* ravel generated unit */",
  "#include <stddef.h>",
  "#include <stdint.h>",
  "",
  "typedef int64_t ravel_int;",
  "typedef uint64_t ravel_uint;",
  "typedef double ravel_num;",
  "",
  "typedef struct ravel_State ravel_State;",
  "typedef struct ravel_Closure ravel_Closure;",
  "",
  "typedef union ravel_Value \x7b",
  "  void *gc;",
  "  int b;",
  "  ravel_int i;",
  "  ravel_num n;",
  "\x7d ravel_Value;",
  "",
  "typedef struct TValue \x7b",
  "  ravel_Value value_;",
  "  int tt_;",
  "\x7d TValue;",
  "",
  "typedef TValue *StkId;",
  "",
  "enum \x7b",
  "  RAVEL_TNIL,",
  "  RAVEL_TBOOLEAN,",
  "  RAVEL_TNUMINT,",
  "  RAVEL_TNUMFLT,",
  "  RAVEL_TSTRING,",
  "  RAVEL_TTABLE,",
  "  RAVEL_TIARRAY,",
  "  RAVEL_TFARRAY,",
  "  RAVEL_TFUNCTION,",
  "  RAVEL_TUSERDATA",
  "\x7d;",
  "",
  "enum \x7b",
  "  RAVEL_OPADD, RAVEL_OPSUB, RAVEL_OPMUL, RAVEL_OPDIV, RAVEL_OPIDIV,",
  "  RAVEL_OPMOD, RAVEL_OPPOW, RAVEL_OPBAND, RAVEL_OPBOR, RAVEL_OPBXOR,",
  "  RAVEL_OPSHL, RAVEL_OPSHR, RAVEL_OPUNM, RAVEL_OPBNOT",
  "\x7d;",
  "",
  "enum \x7b",
  "  RAVEL_ERR_INTEGER_EXPECTED = 1,",
  "  RAVEL_ERR_NUMBER_EXPECTED,",
  "  RAVEL_ERR_INTEGER_ARRAY_EXPECTED,",
  "  RAVEL_ERR_NUMBER_ARRAY_EXPECTED,",
  "  RAVEL_ERR_TABLE_EXPECTED,",
  "  RAVEL_ERR_STRING_EXPECTED,",
  "  RAVEL_ERR_CLOSURE_EXPECTED,",
  "  RAVEL_ERR_ARRAY_OUT_OF_BOUNDS",
  "\x7d;",
  "",
  "typedef struct ravel_UpVal \x7b",
  "  TValue *v;",
  "\x7d ravel_UpVal;",
  "",
  "struct ravel_Closure \x7b",
  "  void *proto;",
  "  TValue *k;",
  "  int nupvalues;",
  "  ravel_UpVal *upvals[1];",
  "\x7d;",
  "",
  "typedef struct ravel_CallInfo \x7b",
  "  StkId func;",
  "  StkId top;",
  "\x7d ravel_CallInfo;",
  "",
  "struct ravel_State \x7b",
  "  StkId top;",
  "  ravel_CallInfo *ci;",
  "\x7d;",
  "",
  "#define ttype(o) ((o)->tt_)",
  "#define ttisnil(o) (ttype(o) == RAVEL_TNIL)",
  "#define ttisinteger(o) (ttype(o) == RAVEL_TNUMINT)",
  "#define ttisfloat(o) (ttype(o) == RAVEL_TNUMFLT)",
  "#define ivalue(o) ((o)->value_.i)",
  "#define fltvalue(o) ((o)->value_.n)",
  "#define clvalue(o) ((ravel_Closure *)(o)->value_.gc)",
  "#define l_isfalse(o) (ttisnil(o) || (ttype(o) == RAVEL_TBOOLEAN && (o)->value_.b == 0))",
  "",
  "#define setobj(L, o1, o2) \x7b TValue *io1_ = (o1); const TValue *io2_ = (o2); *io1_ = *io2_; (void)(L); \x7d",
  "#define setivalue(o, x) \x7b TValue *io_ = (o); io_->value_.i = (x); io_->tt_ = RAVEL_TNUMINT; \x7d",
  "#define setfltvalue(o, x) \x7b TValue *io_ = (o); io_->value_.n = (x); io_->tt_ = RAVEL_TNUMFLT; \x7d",
  "#define setbvalue(o, x) \x7b TValue *io_ = (o); io_->value_.b = (x); io_->tt_ = RAVEL_TBOOLEAN; \x7d",
  "#define setnilvalue(o) ((o)->tt_ = RAVEL_TNIL)",
  "",
  "#define ravel_intop(op, a, b) ((ravel_int)((ravel_uint)(a) op (ravel_uint)(b)))",
  "",
  "static inline ravel_int ravel_shiftl(ravel_int x, ravel_int y) \x7b",
  "  if (y < 0) \x7b",
  "    if (y <= -64) return 0;",
  "    return (ravel_int)((ravel_uint)x >> (ravel_uint)(-y));",
  "  \x7d",
  "  if (y >= 64) return 0;",
  "  return (ravel_int)((ravel_uint)x << (ravel_uint)y);",
  "\x7d",
  "",
  "static inline int ravel_flttointeger(ravel_num n, ravel_int *p) \x7b",
  "  if (!(n >= -9223372036854775808.0 && n < 9223372036854775808.0)) return 0;",
  "  if ((ravel_num)(ravel_int)n != n) return 0;",
  "  *p = (ravel_int)n;",
  "  return 1;",
  "\x7d",
  "",
  "extern int ravel_call(ravel_State *L, StkId func, int nresults);",
  "extern int ravel_return(ravel_State *L, StkId first, int nresults);",
  "extern void ravel_closure(ravel_State *L, ravel_Closure *parent, StkId base, int child, TValue *dest);",
  "extern void ravel_raise_error(ravel_State *L, int code);",
  "",
  "extern int ravel_tointeger(const TValue *o, ravel_int *out);",
  "extern int ravel_tonumber(const TValue *o, ravel_num *out);",
  "extern void ravel_arith(ravel_State *L, int op, TValue *dest, const TValue *a, const TValue *b);",
  "extern void ravel_concat(ravel_State *L, TValue *dest, const TValue *a, const TValue *b);",
  "extern void ravel_objlen(ravel_State *L, TValue *dest, const TValue *a);",
  "extern int ravel_equal(ravel_State *L, const TValue *a, const TValue *b);",
  "extern int ravel_lessthan(ravel_State *L, const TValue *a, const TValue *b);",
  "extern int ravel_lessequal(ravel_State *L, const TValue *a, const TValue *b);",
  "",
  "extern void ravel_getglobal(ravel_State *L, ravel_Closure *cl, const TValue *name, TValue *dest);",
  "extern void ravel_setglobal(ravel_State *L, ravel_Closure *cl, const TValue *name, const TValue *v);",
  "extern void ravel_gettable(ravel_State *L, const TValue *t, const TValue *key, TValue *dest);",
  "extern void ravel_geti(ravel_State *L, const TValue *t, ravel_int key, TValue *dest);",
  "extern void ravel_getfield(ravel_State *L, const TValue *t, const TValue *key, TValue *dest);",
  "extern void ravel_settable(ravel_State *L, const TValue *t, const TValue *key, const TValue *v);",
  "extern void ravel_seti(ravel_State *L, const TValue *t, ravel_int key, const TValue *v);",
  "extern void ravel_setfield(ravel_State *L, const TValue *t, const TValue *key, const TValue *v);",
  "",
  "extern void ravel_newtable(ravel_State *L, TValue *dest);",
  "extern void ravel_newiarray(ravel_State *L, TValue *dest);",
  "extern void ravel_newfarray(ravel_State *L, TValue *dest);",
  "extern ravel_int ravel_arraylen(const TValue *array);",
  "extern int ravel_iarray_get(const TValue *array, ravel_int index, ravel_int *out);",
  "extern int ravel_farray_get(const TValue *array, ravel_int index, ravel_num *out);",
  "extern int ravel_iarray_set(ravel_State *L, const TValue *array, ravel_int index, ravel_int v);",
  "extern int ravel_farray_set(ravel_State *L, const TValue *array, ravel_int index, ravel_num v);"]

def defaultPreamble : String := String.join (preambleLines.map (· ++ "\n"))

end ScriptC
