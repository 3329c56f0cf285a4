import Rvpn.Lib.Bytes
import Rvpn.Lib.Window
import Rvpn.Lib.Slots
import Rvpn.Device.PendingQueue
import Rvpn.Device.AtMostOnce
import Rvpn.Bridge.Main
import Rvpn.Bridge.Exits
import Rvpn.Bridge.Control
import Rvpn.Bridge.ClientArray
import Rvpn.Device.NoLoss
import Rvpn.Device.Registered
import Rvpn.Device.Filter
import Rvpn.Device.Ownership
import Rvpn.Device.Framing
import Rvpn.Device.PacketBounds
import Rvpn.Device.Codec
import Rvpn.Device.HandleValues
import Rvpn.Lib.Assoc
import Rvpn.Lib.Cells
import Rvpn.Registry.Text
import Rvpn.Registry.Tree
import Rvpn.Registry.Edits
import Rvpn.Registry.File
import Rvpn.Registry.Hooks
import Rvpn.Registry.Calls
import Rvpn.Registry.Values
import Rvpn.Registry.Forest
import Rvpn.Registry.Load
import Rvpn.Registry.Codec
import Rvpn.Registry.Restart
import Rvpn.Registry.Handles
import Rvpn.Registry.Save
import Rvpn.Registry.Api
import Rvpn.Registry.Mirror
import Rvpn.Registry.Tables
import Rvpn.Registry.Accepted
import Rvpn.Registry.Deletion
import Rvpn.Registry.Variants
import Rvpn.Registry.Redirect
import Rvpn.Registry.Compose
import Rvpn.Lib.RefCount
import Rvpn.Com.Objects
import Rvpn.Com.Refs
import Rvpn.Com.Runs
import Rvpn.Lib.Decimal
import Rvpn.Netsh.Text
import Rvpn.Netsh.Command
import Rvpn.Netsh.Mask
import Rvpn.Netsh.Strings
import Rvpn.Netsh.View
import Rvpn.Lib.Threads
import Rvpn.Registry.Memory
import Rvpn.Registry.Layout
import Rvpn.Registry.Shape
import Rvpn.Registry.Image
import Rvpn.Registry.Stale
import Rvpn.Registry.Resolve
import Rvpn.Registry.Chain
import Rvpn.Registry.Components
import Rvpn.Registry.Truncated
import Rvpn.Netsh.Layout
import Rvpn.Device.Overlapped
import Rvpn.Device.FirstMatch
import Rvpn.Registry.Enumerate
import Rvpn.Registry.LogReads
import Rvpn.Netsh.Arguments
import Rvpn.Netsh.Prefixes
import Rvpn.Com.Wmi
import Rvpn.Lib.Flat
import Rvpn.Inject.Iat
import Rvpn.Lib.Lines
import Rvpn.Config.Load
import Rvpn.Config.LineWise
import Rvpn.Lib.Scan
import Rvpn.Registry.Walkers
import Rvpn.Registry.WalkEnds
import Rvpn.Registry.Visits
import Rvpn.Lib.Replace
import Rvpn.Registry.Savers
import Rvpn.Lib.Refine
import Rvpn.Registry.Durable
import Rvpn.Lib.Blocks
import Rvpn.Device.HandleList
import Rvpn.Inject.Install
import Rvpn.Lib.Detour
import Rvpn.Inject.Trampoline
import Rvpn.Device.Outbound
import Rvpn.Netsh.Interface
import Rvpn.Lib.Procs
import Rvpn.Inject.Launch
