import Mathlib.Data.List.Basic

/-!
# Cacheable events (`generated/event_types.rb`)

The events for which Endpoint Security accepts a cached response, with their SDK values.
-/

namespace EndpointSecurity.EventType

/-- `ES_EVENT_TYPE_AUTH_OPEN` -/
def authOpen : Nat := 1

/-- The constant `CACHEABLE`, each symbol with its value. -/
def cacheableEvents : List (String × Nat) :=
  [("auth_exec", 0), ("auth_open", 1), ("auth_mmap", 3), ("auth_mount", 5),
    ("auth_setflags", 47), ("auth_setmode", 48), ("auth_setowner", 49), ("auth_chdir", 50),
    ("auth_getattrlist", 52), ("auth_chroot", 56), ("auth_utimes", 58),
    ("auth_getextattr", 63), ("auth_listextattr", 65), ("auth_readdir", 67),
    ("auth_fsgetpath", 71), ("auth_uipc_connect", 79), ("auth_proc_check", 85),
    ("auth_get_task", 87), ("auth_searchfs", 88), ("auth_get_task_read", 100)]

/-- `EventType.cacheable?` for the event with this value. -/
def cacheable (value : Nat) : Bool := cacheableEvents.any fun event => event.2 = value

end EndpointSecurity.EventType
