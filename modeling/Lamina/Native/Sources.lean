/-!
# The native runtime

The C sources that every native program is compiled with: the declarations of the runtime, and its
definitions.
-/

namespace Lamina.Native

/-- The text made up of lines. -/
def ofLines (lines : List String) : String := String.join (lines.map (· ++ "\n"))

/-- The declarations. -/
def headerText : String := ofLines [
  "/* lazyc runtime: tagged values, curried closures and intrinsics. */",
  "#ifndef LAZYC_RUNTIME_H",
  "#define LAZYC_RUNTIME_H",
  "",
  "#include <stdint.h>",
  "",
  "#define LZ_MAX_ARITY 8",
  "",
  "typedef enum \x7b",
  "    LZ_INT,",
  "    LZ_STR,",
  "    LZ_CLOSURE,",
  "    LZ_CON",
  "\x7d lz_tag;",
  "",
  "typedef void (*lz_code)(void);",
  "",
  "typedef struct lz_val lz_val;",
  "",
  "typedef struct \x7b",
  "    lz_code code;",
  "    int arity;",
  "    int applied;",
  "    lz_val **args;",
  "\x7d lz_closure;",
  "",
  "struct lz_val \x7b",
  "    lz_tag tag;",
  "    union \x7b",
  "        int64_t i64;",
  "        const char *str;",
  "        lz_closure closure;",
  "        uint32_t con;",
  "    \x7d as;",
  "\x7d;",
  "",
  "lz_val *lz_alloc_int(int64_t value);",
  "lz_val *lz_alloc_str(const char *bytes);",
  "lz_val *lz_alloc_closure(lz_code code, int arity);",
  "lz_val *lz_alloc_con(uint32_t tag);",
  "",
  "/* Applies one argument. Returns a fresh closure while unsaturated, the",
  "   callee's result once saturated. The input closure is never modified. */",
  "lz_val *lz_apply(lz_val *fn, lz_val *arg);",
  "",
  "int lz_truthy(lz_val *v);",
  "int lz_is_unit(lz_val *v);",
  "void lz_print_val(lz_val *v);",
  "void lz_fatal(const char *fmt, ...);",
  "",
  "lz_val *lz_plus(lz_val *a, lz_val *b);",
  "lz_val *lz_minus(lz_val *a, lz_val *b);",
  "lz_val *lz_mult(lz_val *a, lz_val *b);",
  "lz_val *lz_div(lz_val *a, lz_val *b);",
  "lz_val *lz_mod(lz_val *a, lz_val *b);",
  "lz_val *lz_eq(lz_val *a, lz_val *b);",
  "lz_val *lz_neq(lz_val *a, lz_val *b);",
  "lz_val *lz_lt(lz_val *a, lz_val *b);",
  "lz_val *lz_lte(lz_val *a, lz_val *b);",
  "lz_val *lz_gt(lz_val *a, lz_val *b);",
  "lz_val *lz_gte(lz_val *a, lz_val *b);",
  "lz_val *lz_negate(lz_val *a);",
  "lz_val *lz_show(lz_val *a);",
  "lz_val *lz_put_str_ln(lz_val *a);",
  "",
  "#endif"]

/-- The definitions. -/
def sourceText : String := ofLines [
  "#include \"lazyc_runtime.h\"",
  "",
  "#include <inttypes.h>",
  "#include <stdarg.h>",
  "#include <stdio.h>",
  "#include <stdlib.h>",
  "#include <string.h>",
  "",
  "/* ---------------------------------------------------------------------- */",
  "/* Errors and allocation                                                   */",
  "/* ---------------------------------------------------------------------- */",
  "",
  "void lz_fatal(const char *fmt, ...) \x7b",
  "    va_list ap;",
  "    fflush(stdout);",
  "    fputs(\"runtime error: \", stderr);",
  "    va_start(ap, fmt);",
  "    vfprintf(stderr, fmt, ap);",
  "    va_end(ap);",
  "    fputc('\\n', stderr);",
  "    exit(1);",
  "\x7d",
  "",
  "static void *lz_malloc(size_t size) \x7b",
  "    void *p = malloc(size);",
  "    if (p == NULL) \x7b",
  "        lz_fatal(\"out of memory\");",
  "    \x7d",
  "    return p;",
  "\x7d",
  "",
  "static const char *lz_kind(lz_val *v) \x7b",
  "    switch (v->tag) \x7b",
  "    case LZ_INT:",
  "        return \"int\";",
  "    case LZ_STR:",
  "        return \"string\";",
  "    case LZ_CLOSURE:",
  "        return \"closure\";",
  "    case LZ_CON:",
  "        return \"constructor\";",
  "    \x7d",
  "    return \"unknown\";",
  "\x7d",
  "",
  "lz_val *lz_alloc_int(int64_t value) \x7b",
  "    lz_val *v = lz_malloc(sizeof(lz_val));",
  "    v->tag = LZ_INT;",
  "    v->as.i64 = value;",
  "    return v;",
  "\x7d",
  "",
  "/* Does not copy: literals are static and shown strings are never freed. */",
  "lz_val *lz_alloc_str(const char *bytes) \x7b",
  "    lz_val *v = lz_malloc(sizeof(lz_val));",
  "    v->tag = LZ_STR;",
  "    v->as.str = bytes;",
  "    return v;",
  "\x7d",
  "",
  "lz_val *lz_alloc_closure(lz_code code, int arity) \x7b",
  "    lz_val *v = lz_malloc(sizeof(lz_val));",
  "    v->tag = LZ_CLOSURE;",
  "    v->as.closure.code = code;",
  "    v->as.closure.arity = arity;",
  "    v->as.closure.applied = 0;",
  "    v->as.closure.args = NULL;",
  "    if (arity > 0) \x7b",
  "        v->as.closure.args = lz_malloc(sizeof(lz_val *) * (size_t)arity);",
  "        memset(v->as.closure.args, 0, sizeof(lz_val *) * (size_t)arity);",
  "    \x7d",
  "    return v;",
  "\x7d",
  "",
  "lz_val *lz_alloc_con(uint32_t tag) \x7b",
  "    lz_val *v = lz_malloc(sizeof(lz_val));",
  "    v->tag = LZ_CON;",
  "    v->as.con = tag;",
  "    return v;",
  "\x7d",
  "",
  "static lz_val *lz_copy_closure(lz_val *orig) \x7b",
  "    lz_val *v = lz_alloc_closure(orig->as.closure.code, orig->as.closure.arity);",
  "    v->as.closure.applied = orig->as.closure.applied;",
  "    if (orig->as.closure.arity > 0) \x7b",
  "        memcpy(v->as.closure.args, orig->as.closure.args,",
  "               sizeof(lz_val *) * (size_t)orig->as.closure.arity);",
  "    \x7d",
  "    return v;",
  "\x7d",
  "",
  "/* ---------------------------------------------------------------------- */",
  "/* Application                                                             */",
  "/* ---------------------------------------------------------------------- */",
  "",
  "typedef lz_val *(*lz_fn1)(lz_val *);",
  "typedef lz_val *(*lz_fn2)(lz_val *, lz_val *);",
  "typedef lz_val *(*lz_fn3)(lz_val *, lz_val *, lz_val *);",
  "typedef lz_val *(*lz_fn4)(lz_val *, lz_val *, lz_val *, lz_val *);",
  "typedef lz_val *(*lz_fn5)(lz_val *, lz_val *, lz_val *, lz_val *, lz_val *);",
  "typedef lz_val *(*lz_fn6)(lz_val *, lz_val *, lz_val *, lz_val *, lz_val *,",
  "                          lz_val *);",
  "typedef lz_val *(*lz_fn7)(lz_val *, lz_val *, lz_val *, lz_val *, lz_val *,",
  "                          lz_val *, lz_val *);",
  "typedef lz_val *(*lz_fn8)(lz_val *, lz_val *, lz_val *, lz_val *, lz_val *,",
  "                          lz_val *, lz_val *, lz_val *);",
  "",
  "lz_val *lz_apply(lz_val *fn, lz_val *arg) \x7b",
  "    lz_val *a[LZ_MAX_ARITY];",
  "    lz_closure *c;",
  "    int i;",
  "",
  "    if (fn->tag != LZ_CLOSURE) \x7b",
  "        lz_fatal(\"applying a non-closure value (%s)\", lz_kind(fn));",
  "    \x7d",
  "    c = &fn->as.closure;",
  "",
  "    if (c->applied + 1 < c->arity) \x7b",
  "        lz_val *next = lz_copy_closure(fn);",
  "        next->as.closure.args[next->as.closure.applied] = arg;",
  "        next->as.closure.applied++;",
  "        return next;",
  "    \x7d",
  "",
  "    if (c->arity < 1 || c->arity > LZ_MAX_ARITY) \x7b",
  "        lz_fatal(\"arity %d not supported\", c->arity);",
  "    \x7d",
  "    for (i = 0; i < c->applied; i++) \x7b",
  "        a[i] = c->args[i];",
  "    \x7d",
  "    a[c->applied] = arg;",
  "",
  "    switch (c->arity) \x7b",
  "    case 1:",
  "        return ((lz_fn1)c->code)(a[0]);",
  "    case 2:",
  "        return ((lz_fn2)c->code)(a[0], a[1]);",
  "    case 3:",
  "        return ((lz_fn3)c->code)(a[0], a[1], a[2]);",
  "    case 4:",
  "        return ((lz_fn4)c->code)(a[0], a[1], a[2], a[3]);",
  "    case 5:",
  "        return ((lz_fn5)c->code)(a[0], a[1], a[2], a[3], a[4]);",
  "    case 6:",
  "        return ((lz_fn6)c->code)(a[0], a[1], a[2], a[3], a[4], a[5]);",
  "    case 7:",
  "        return ((lz_fn7)c->code)(a[0], a[1], a[2], a[3], a[4], a[5], a[6]);",
  "    default:",
  "        return ((lz_fn8)c->code)(a[0], a[1], a[2], a[3], a[4], a[5], a[6], a[7]);",
  "    \x7d",
  "\x7d",
  "",
  "/* ---------------------------------------------------------------------- */",
  "/* Inspection                                                              */",
  "/* ---------------------------------------------------------------------- */",
  "",
  "int lz_truthy(lz_val *v) \x7b",
  "    if (v->tag != LZ_INT) \x7b",
  "        lz_fatal(\"if expects int, found %s\", lz_kind(v));",
  "    \x7d",
  "    return v->as.i64 != 0;",
  "\x7d",
  "",
  "int lz_is_unit(lz_val *v) \x7b",
  "    return v->tag == LZ_CON && v->as.con == 0;",
  "\x7d",
  "",
  "void lz_print_val(lz_val *v) \x7b",
  "    switch (v->tag) \x7b",
  "    case LZ_INT:",
  "        printf(\"%\" PRId64, v->as.i64);",
  "        break;",
  "    case LZ_STR:",
  "        fputs(v->as.str, stdout);",
  "        break;",
  "    case LZ_CLOSURE:",
  "        fputs(\"<closure>\", stdout);",
  "        break;",
  "    case LZ_CON:",
  "        printf(\"<con %u>\", (unsigned)v->as.con);",
  "        break;",
  "    \x7d",
  "\x7d",
  "",
  "/* ---------------------------------------------------------------------- */",
  "/* Intrinsics                                                              */",
  "/* ---------------------------------------------------------------------- */",
  "",
  "static int64_t lz_int_arg(const char *intrinsic, lz_val *v) \x7b",
  "    if (v->tag != LZ_INT) \x7b",
  "        lz_fatal(\"%s expects int, found %s\", intrinsic, lz_kind(v));",
  "    \x7d",
  "    return v->as.i64;",
  "\x7d",
  "",
  "/* Two's complement wrap-around, computed unsigned. */",
  "lz_val *lz_plus(lz_val *a, lz_val *b) \x7b",
  "    uint64_t x = (uint64_t)lz_int_arg(\"plus\", a);",
  "    uint64_t y = (uint64_t)lz_int_arg(\"plus\", b);",
  "    return lz_alloc_int((int64_t)(x + y));",
  "\x7d",
  "",
  "lz_val *lz_minus(lz_val *a, lz_val *b) \x7b",
  "    uint64_t x = (uint64_t)lz_int_arg(\"minus\", a);",
  "    uint64_t y = (uint64_t)lz_int_arg(\"minus\", b);",
  "    return lz_alloc_int((int64_t)(x - y));",
  "\x7d",
  "",
  "lz_val *lz_mult(lz_val *a, lz_val *b) \x7b",
  "    uint64_t x = (uint64_t)lz_int_arg(\"mult\", a);",
  "    uint64_t y = (uint64_t)lz_int_arg(\"mult\", b);",
  "    return lz_alloc_int((int64_t)(x * y));",
  "\x7d",
  "",
  "lz_val *lz_div(lz_val *a, lz_val *b) \x7b",
  "    int64_t x = lz_int_arg(\"div\", a);",
  "    int64_t y = lz_int_arg(\"div\", b);",
  "    if (y == 0) \x7b",
  "        lz_fatal(\"division by zero\");",
  "    \x7d",
  "    if (y == -1) \x7b",
  "        return lz_alloc_int((int64_t)(0 - (uint64_t)x));",
  "    \x7d",
  "    return lz_alloc_int(x / y);",
  "\x7d",
  "",
  "lz_val *lz_mod(lz_val *a, lz_val *b) \x7b",
  "    int64_t x = lz_int_arg(\"mod\", a);",
  "    int64_t y = lz_int_arg(\"mod\", b);",
  "    if (y == 0) \x7b",
  "        lz_fatal(\"division by zero\");",
  "    \x7d",
  "    if (y == -1) \x7b",
  "        return lz_alloc_int(0);",
  "    \x7d",
  "    return lz_alloc_int(x % y);",
  "\x7d",
  "",
  "static int lz_equal(const char *intrinsic, lz_val *a, lz_val *b) \x7b",
  "    if (a->tag == LZ_INT && b->tag == LZ_INT) \x7b",
  "        return a->as.i64 == b->as.i64;",
  "    \x7d",
  "    if (a->tag == LZ_STR && b->tag == LZ_STR) \x7b",
  "        return strcmp(a->as.str, b->as.str) == 0;",
  "    \x7d",
  "    if (a->tag == LZ_CON && b->tag == LZ_CON) \x7b",
  "        return a->as.con == b->as.con;",
  "    \x7d",
  "    lz_fatal(\"%s expects comparable values, found %s\", intrinsic,",
  "             a->tag == LZ_CLOSURE ? lz_kind(a) : lz_kind(b));",
  "    return 0;",
  "\x7d",
  "",
  "lz_val *lz_eq(lz_val *a, lz_val *b) \x7b",
  "    return lz_alloc_int(lz_equal(\"eq\", a, b));",
  "\x7d",
  "",
  "lz_val *lz_neq(lz_val *a, lz_val *b) \x7b",
  "    return lz_alloc_int(!lz_equal(\"neq\", a, b));",
  "\x7d",
  "",
  "lz_val *lz_lt(lz_val *a, lz_val *b) \x7b",
  "    int64_t x = lz_int_arg(\"lt\", a);",
  "    return lz_alloc_int(x < lz_int_arg(\"lt\", b));",
  "\x7d",
  "",
  "lz_val *lz_lte(lz_val *a, lz_val *b) \x7b",
  "    int64_t x = lz_int_arg(\"lte\", a);",
  "    return lz_alloc_int(x <= lz_int_arg(\"lte\", b));",
  "\x7d",
  "",
  "lz_val *lz_gt(lz_val *a, lz_val *b) \x7b",
  "    int64_t x = lz_int_arg(\"gt\", a);",
  "    return lz_alloc_int(x > lz_int_arg(\"gt\", b));",
  "\x7d",
  "",
  "lz_val *lz_gte(lz_val *a, lz_val *b) \x7b",
  "    int64_t x = lz_int_arg(\"gte\", a);",
  "    return lz_alloc_int(x >= lz_int_arg(\"gte\", b));",
  "\x7d",
  "",
  "lz_val *lz_negate(lz_val *a) \x7b",
  "    uint64_t x = (uint64_t)lz_int_arg(\"negate\", a);",
  "    return lz_alloc_int((int64_t)(0 - x));",
  "\x7d",
  "",
  "lz_val *lz_show(lz_val *v) \x7b",
  "    char buf[32];",
  "    char *copy;",
  "",
  "    switch (v->tag) \x7b",
  "    case LZ_INT:",
  "        snprintf(buf, sizeof(buf), \"%\" PRId64, v->as.i64);",
  "        break;",
  "    case LZ_STR:",
  "        return v;",
  "    case LZ_CLOSURE:",
  "        return lz_alloc_str(\"<closure>\");",
  "    case LZ_CON:",
  "        snprintf(buf, sizeof(buf), \"<con %u>\", (unsigned)v->as.con);",
  "        break;",
  "    \x7d",
  "    copy = lz_malloc(strlen(buf) + 1);",
  "    strcpy(copy, buf);",
  "    return lz_alloc_str(copy);",
  "\x7d",
  "",
  "lz_val *lz_put_str_ln(lz_val *s) \x7b",
  "    if (s->tag != LZ_STR) \x7b",
  "        lz_fatal(\"putStrLn expects string, found %s\", lz_kind(s));",
  "    \x7d",
  "    puts(s->as.str);",
  "    return lz_alloc_con(0);",
  "\x7d"]

end Lamina.Native
