import LuaEngine.Server.Delivery
import LuaEngine.Client.ChatClient
import LuaEngine.Callbacks.Frame
import LuaEngine.Callbacks.Message
import LuaEngine.Callbacks.Threads
import LuaEngine.Lua.Table
import LuaEngine.System.Graph
import LuaEngine.System.Outcome
import LuaEngine.Lua.Base
import LuaEngine.Utils.DeepCopy
import LuaEngine.Utils.DeepCopyGraph
import LuaEngine.Lua.Text
import LuaEngine.Utils.PrintTable
import LuaEngine.Utils.PrintTableLines
import LuaEngine.Utils.PrintTableLabels
import LuaEngine.Lua.Module
import LuaEngine.Lua.Order
import LuaEngine.Utils.PairsByKeys
import LuaEngine.Lua.Reference
import LuaEngine.Callbacks.Registration
import LuaEngine.Start.Lifetime
import LuaEngine.Lua.Pattern
import LuaEngine.Start.ServType
import LuaEngine.Start.ProgArgs
import LuaEngine.Codec.Bounds
import LuaEngine.Utils.Metainfo
import LuaEngine.Lua.Stack
import LuaEngine.Tinker.LuaClass
import LuaEngine.Tinker.Runs
import LuaEngine.Relay.Delivery
import LuaEngine.Relay.Drain
import LuaEngine.System.Chain
import LuaEngine.Lua.HashTable
import LuaEngine.Lua.HashTableLength
import LuaEngine.Lua.HashTableNext
import LuaEngine.Lua.Sort
import LuaEngine.Utils.TableSort
import LuaEngine.Tinker.Binding
import LuaEngine.Tinker.Parents
import LuaEngine.Tinker.Accesses
